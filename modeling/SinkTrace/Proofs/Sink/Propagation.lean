import SinkTrace.Proofs.Sink.Growth
import SinkTrace.Proofs.Sink.Removal
import SinkTrace.Proofs.Sink.Spread

/-!
# Callers within a module

Within a module the callers of every method that leads to a sink are added round after round, until
a round finds no new method. At the end the methods are the least set that has the earlier ones and
the callers of its members.

Which links a method has is less simple. The callers that come new with one method share their
links, so what is noted for one of them is noted for all.
-/

namespace SinkTrace

open List

namespace Sinks

variable {callers : NameTable} {n : SinkNode} {l shared : Links} {seen : Names}
  {ss : Sinks} {caller e method mod x y : String} {K cs : List String} {P : Names → Sinks → Prop}
  {i : SetId} {side : Links → SetId}

def NearCaller (callers : NameTable) (method caller : String) : Prop :=
  caller ∈ callers.getD method [] ∧ '#' ∉ caller.toList

instance (callers : NameTable) (method caller : String) :
    Decidable (NearCaller callers method caller) := inferInstanceAs (Decidable (_ ∧ _))

abbrev nearCallers (callers : NameTable) (method : String) : List String :=
  (callers.getD method []).filter fun c => !c.toList.contains '#'

lemma mem_nearCallers : caller ∈ nearCallers callers method ↔ NearCaller callers method caller := by
  simp [NearCaller]

/-! ### One caller -/

lemma nodes_insertIn (side : Links → SetId) (mod method name : String) (ss : Sinks) :
    (insertIn side mod method name ss).nodes = ss.nodes := by
  unfold insertIn
  split <;> rfl

lemma entries_insertIn (side : Links → SetId) (mod method name : String) (ss : Sinks) :
    (insertIn side mod method name ss).entries = ss.entries := by
  unfold insertIn
  split <;> rfl

lemma nodes_addCaller (mod method : String) (shared : Links) (ss : Sinks) (caller : String) :
    (addCaller mod method shared ss caller).nodes
      = (shareModules mod method caller (shareLinks mod caller shared ss)).nodes := by
  rw [addCaller]
  simp only [shareModules, adjustNode, nodes_insertIn, addPotentMethod]

lemma links?_shareModules (mod method caller : String) (ss : Sinks) (X x : String) :
    (shareModules mod method caller ss).links? X x = ss.links? X x := by
  unfold shareModules
  rw [links?_adjustNode]
  split_ifs with hX
  · unfold links?
    congr 1
    funext n
    split <;> rfl
  · rfl

lemma links?_shareLinks (hmod : (ss.node? mod).isSome) (X x : String) :
    (shareLinks mod caller shared ss).links? X x
      = if X = mod ∧ x = caller then some ((ss.links? mod caller).getD shared)
      else ss.links? X x := by
  unfold shareLinks
  cases hl : ss.links? mod caller with
  | some l =>
    split_ifs with h
    · rw [h.1, h.2, hl]
      rfl
    · rfl
  | none =>
    obtain ⟨n, hn⟩ := Option.isSome_iff_exists.mp hmod
    simp only [links?_withMethod, hn]
    rfl

lemma links?_addCaller (hmod : (ss.node? mod).isSome) (method caller : String) (shared : Links)
    (x : String) :
    (addCaller mod method shared ss caller).links? mod x
      = if x = caller then some ((ss.links? mod caller).getD shared) else ss.links? mod x := by
  rw [links?_eq_of_nodes (nodes_addCaller ..), links?_shareModules, links?_shareLinks hmod]
  simp

lemma node?_addCaller {X : String} (hX : X ≠ mod) :
    (addCaller mod method shared ss caller).node? X = ss.node? X := by
  rw [node?_eq_of_nodes (nodes_addCaller ..), shareModules, node?_adjustNode, if_neg hX, shareLinks]
  split
  · rfl
  · rw [node?_adjustNode, if_neg hX]

lemma mem_entries_addCaller {k : String} : e ∈ (addCaller mod method shared ss caller).entries k
      ↔ e ∈ ss.entries k ∨ k = caller ∧ e = mod := by
  have hlinks : (shareLinks mod caller shared ss).entries k = ss.entries k := by
    unfold shareLinks
    split <;> rfl
  rw [addCaller]
  change e ∈ (insertIn _ _ _ _ _).entries k ↔ _
  rw [entries_insertIn, mem_entries_addPotentMethod, entries_insertIn, hlinks, mem_singleton]

/-- The callers `cs` have come to the module, and nothing else. -/
structure Added (mod : String) (ss : Sinks) (cs : List String) (ss' : Sinks) : Prop where
  node : (ss'.node? mod).isSome = true
  methods : ∀ x, ss'.HasMethod mod x ↔ ss.HasMethod mod x ∨ x ∈ cs
  entries : ∀ k e, e ∈ ss'.entries k ↔ e ∈ ss.entries k ∨ k ∈ cs ∧ e = mod
  others : ∀ X, X ≠ mod → ss'.node? X = ss.node? X

lemma Added.refl (hmod : (ss.node? mod).isSome) : Added mod ss [] ss where
  node := hmod
  methods x := by simp
  entries k e := by simp
  others _ _ := rfl

lemma Added.adjustNode {ss' : Sinks} (h : Added mod ss cs ss') {f : SinkNode → SinkNode}
    (hf : ∀ n, (f n).methodUsers = n.methodUsers) : Added mod ss cs (ss'.adjustNode mod f) where
  node := by
    rw [node?_adjustNode, if_pos rfl, Option.isSome_map]
    exact h.node
  methods x := by
    rw [← h.methods, HasMethod, links?_adjustNode, if_pos rfl]
    simp only [hf]
    rfl
  entries := h.entries
  others X hX := by rw [node?_adjustNode, if_neg hX, h.others X hX]

lemma Added.addCaller {ss' : Sinks} (h : Added mod ss cs ss') (method caller : String)
    (shared : Links) : Added mod ss (cs ++ [caller]) (addCaller mod method shared ss' caller) where
  node := by
    have hthere : (Sinks.addCaller mod method shared ss' caller).HasMethod mod caller := by
      rw [HasMethod, links?_addCaller h.node, if_pos rfl]
      rfl
    obtain ⟨n, hn⟩ := hthere.node
    rw [hn]
    rfl
  methods x := by
    rw [HasMethod, links?_addCaller h.node, mem_append, mem_singleton, ← or_assoc, ← h.methods]
    by_cases hx : x = caller <;> simp [hx]
  entries k e := by
    rw [mem_entries_addCaller, h.entries]
    simp only [mem_append, mem_singleton]
    tauto
  others X hX := by rw [node?_addCaller hX, h.others X hX]

/-! ### The callers of a method, and rounds -/

lemma addCallers_induction {P : List String → Sinks → Prop} (hnew : P [] (ss.newLinks [] []).1)
    (hstep : ∀ cs ss' caller, NearCaller callers method caller → P cs ss' →
      P (cs ++ [caller]) (addCaller mod method (ss.newLinks [] []).2 ss' caller)) :
    P (nearCallers callers method) (addCallers mod callers ss method) := by
  have hfold (cs ds : List String) (hds : ∀ c ∈ ds, NearCaller callers method c) (ss' : Sinks)
      (hP : P cs ss') :
      P (cs ++ ds) (ds.foldl (addCaller mod method (ss.newLinks [] []).2) ss') := by
    induction ds generalizing cs ss' with
    | nil => simpa using hP
    | cons d ds ih =>
      obtain ⟨hd, hds⟩ := forall_mem_cons.mp hds
      simpa using ih (cs ++ [d]) hds _ (hstep cs ss' d hd hP)
  exact hfold [] _ (fun c => mem_nearCallers.mp) _ hnew

lemma Added.addCallers {ss' : Sinks} (h : Added mod ss cs ss') (method : String) :
    Added mod ss (cs ++ nearCallers callers method) (addCallers mod callers ss' method) := by
  refine addCallers_induction (P := fun ds => Added mod ss (cs ++ ds)) ?_
    fun _ _ caller _ hadded => ?_
  · simpa using ⟨h.node, h.methods, h.entries, h.others⟩
  · simpa using hadded.addCaller method caller _

lemma hasMethod_addCallers (hmod : (ss.node? mod).isSome) :
    (addCallers mod callers ss method).HasMethod mod x
      ↔ ss.HasMethod mod x ∨ NearCaller callers method x := by
  rw [((Added.refl hmod).addCallers method).methods, nil_append, mem_nearCallers]

abbrev round (mod : String) (callers : NameTable) (methods : List String) (ss : Sinks) : Sinks :=
  markFollowed mod (methods.foldl (addCallers mod callers) ss)

lemma spreadRounds_succ (callers : NameTable) (hn : ss.node? mod = some n)
    (fuel : Nat) (seen : Names) :
    spreadRounds mod callers (fuel + 1) seen ss
      = if (unseen n seen).isEmpty then ss
        else spreadRounds mod callers fuel (seen ++ unseen n seen)
          (round mod callers (unseen n seen) ss) := by simp only [spreadRounds, hn]

lemma mem_unseen (hn : ss.node? mod = some n) : x ∈ unseen n seen ↔ ss.HasMethod mod x ∧
    x ∉ seen := by
  rw [hasMethod_iff, mem_filter, Table.mem_keys_iff]
  simp [hn]

lemma forall_seen (hn : ss.node? mod = some n) (hnew : (unseen n seen).isEmpty) (x : String)
    (hx : ss.HasMethod mod x) : x ∈ seen := by
  by_contra hseen
  have hmem := (mem_unseen hn).mpr ⟨hx, hseen⟩
  rw [isEmpty_iff.mp hnew] at hmem
  cases hmem

lemma round_induction {methods : List String} (seen : Names)
    (hstep : ∀ seen ss method, ss.HasMethod mod method → P seen ss →
      P (seen ++ [method]) (addCallers mod callers ss method))
    (hmark : ∀ seen ss, P seen ss → P seen (markFollowed mod ss))
    (hmethods : ∀ method ∈ methods, ss.HasMethod mod method) (hP : P seen ss) :
    P (seen ++ methods) (round mod callers methods ss) := by
  refine hmark _ _ ?_
  induction methods generalizing seen ss with
  | nil => simpa using hP
  | cons method methods ih =>
    obtain ⟨hmethod, hmethods⟩ := forall_mem_cons.mp hmethods
    have hrest := ih _ (fun x hx => ?_) (hstep seen ss method hmethod hP)
    · simpa using hrest
    · obtain ⟨n, hn⟩ := hmethod.node
      exact (hasMethod_addCallers (by rw [hn]; rfl)).mpr (.inl (hmethods x hx))

lemma round_unseen (hK : ∀ x c, NearCaller callers x c → c ∈ K) (hn : ss.node? mod = some n)
    (hwithin : Within mod K ss) (hnew : ¬ (unseen n seen).isEmpty) :
    ((round mod callers (unseen n seen) ss).node? mod).isSome ∧
      Within mod K (round mod callers (unseen n seen) ss) ∧
      (unseenCandidates K (seen ++ unseen n seen)).length < (unseenCandidates K seen).length := by
  have hmethods : ∀ method ∈ unseen n seen, ss.HasMethod mod method :=
    fun _ h => ((mem_unseen hn).mp h).1
  rw [← and_assoc]
  constructor
  · refine round_induction (P := fun _ ss => (ss.node? mod).isSome ∧ Within mod K ss) []
      (fun _ ss method _ hP => ?_) (fun _ ss hP => ?_) hmethods ⟨by rw [hn]; rfl, hwithin⟩
    · refine ⟨((Added.refl hP.1).addCallers method).node, fun x hx => ?_⟩
      exact ((hasMethod_addCallers hP.1).mp hx).elim (hP.2 x) (hK method x)
    · refine ⟨(widens_markFollowed mod ss).isSome mod ▸ hP.1, fun x hx => hP.2 x ?_⟩
      rwa [HasMethod, links?_markFollowed] at hx
  · obtain ⟨x, hx⟩ := exists_mem_of_ne_nil _ (mt isEmpty_iff.mpr hnew)
    refine unseenCandidates_lt hx (hwithin x (hmethods x hx)) ?_
    simpa using ((mem_unseen hn).mp hx).2

lemma followed_of_markFollowed {n' : SinkNode} (h : (markFollowed mod ss).node? mod = some n') :
    n'.followed = n'.methodUsers.size := by
  rw [node?_adjustNode, if_pos rfl] at h
  obtain ⟨n, -, rfl⟩ := Option.map_eq_some_iff.mp h
  rfl

/-- What is kept with each method is kept by the rounds, and more fuel makes no difference. -/
lemma spreadRounds_induction {fuel : Nat} (hK : ∀ x c, NearCaller callers x c → c ∈ K)
    (hstep : ∀ seen ss method, ss.HasMethod mod method → P seen ss →
      P (seen ++ [method]) (addCallers mod callers ss method))
    (hmark : ∀ seen ss, P seen ss → P seen (markFollowed mod ss))
    (hmod : (ss.node? mod).isSome) (hwithin : Within mod K ss)
    (hfuel : (unseenCandidates K seen).length < fuel) (hP : P seen ss) :
    ∃ ss' seen', spreadRounds mod callers fuel seen ss = ss' ∧ P seen' ss' ∧
      (∀ x, ss'.HasMethod mod x → x ∈ seen') ∧
      (∀ fuel' ≥ fuel, spreadRounds mod callers fuel' seen ss = ss') ∧
      (seen' = seen ∧ ss' = ss ∨ ∀ n', ss'.node? mod = some n' →
        n'.followed = n'.methodUsers.size) := by
  induction fuel generalizing seen ss with
  | zero => exact absurd hfuel (Nat.not_lt_zero _)
  | succ fuel ih =>
    obtain ⟨n, hn⟩ := Option.isSome_iff_exists.mp hmod
    by_cases hnew : (unseen n seen).isEmpty
    · have hend (fuel : Nat) : spreadRounds mod callers (fuel + 1) seen ss = ss := by
        rw [spreadRounds_succ callers hn, if_pos hnew]
      refine ⟨ss, seen, hend fuel, hP, forall_seen hn hnew, fun fuel' hle => ?_, .inl ⟨rfl, rfl⟩⟩
      obtain ⟨fuel', rfl⟩ := Nat.exists_eq_add_of_le' (Nat.one_le_of_lt hle)
      exact hend fuel'
    · obtain ⟨hmod', hwithin', hless⟩ := round_unseen hK hn hwithin hnew
      have hround (fuel : Nat) := spreadRounds_succ callers hn fuel seen
      simp only [if_neg hnew] at hround
      obtain ⟨ss', seen', heq, hP', hall, hmore, hlast⟩ := ih hmod' hwithin' (by omega)
        (round_induction seen hstep hmark (fun _ h => ((mem_unseen hn).mp h).1) hP)
      refine ⟨ss', seen', (hround fuel).trans heq, hP', hall, fun fuel' hle => ?_, .inr ?_⟩
      · obtain ⟨fuel', rfl⟩ := Nat.exists_eq_add_of_le' (Nat.one_le_of_lt hle)
        exact (hround fuel').trans (hmore fuel' (by omega))
      · rcases hlast with ⟨-, rfl⟩ | hfollowed
        · exact fun _ => followed_of_markFollowed
        · exact hfollowed

section Module

variable {table : Callers}

lemma NearCaller.mem_candidates (h : NearCaller callers method caller) :
    caller ∈ candidates n callers := by
  rw [← (StandsFor.near h.2 : StandsFor method caller method caller).name]
  exact callerName_mem_candidates h.1

lemma spreadModule_induction (table : Callers) (hn : ss.node? mod = some n)
    (hfollowed : n.followed ≠ n.methodUsers.size)
    (hstep : ∀ seen ss method, ss.HasMethod mod method → P seen ss →
      P (seen ++ [method]) (addCallers mod (table n.callers) ss method))
    (hmark : ∀ seen ss, P seen ss → P seen (markFollowed mod ss)) (hP : P [] ss) :
    ∃ ss' seen, ss.spreadModule table mod = ss' ∧ P seen ss' ∧
      (∀ x, ss'.HasMethod mod x → x ∈ seen) ∧
      (∀ fuel ≥ roundBound n (table n.callers), spreadRounds mod (table n.callers) fuel
        [] ss = ss') ∧
      (seen = [] ∧ ss' = ss ∨ ∀ n', ss'.node? mod = some n' →
        n'.followed = n'.methodUsers.size) := by
  simp only [spreadModule, hn, if_neg hfollowed]
  exact spreadRounds_induction (fun _ _ h => h.mem_candidates) hstep hmark (by rw [hn]; rfl)
    (within_candidates hn) candidates_lt_roundBound hP

lemma mem_of_spreadModule (hn : ss.node? mod = some n) (hfollowed : n.followed ≠ n.methodUsers.size)
    {K : Set String} (hold : ∀ x, ss.HasMethod mod x → x ∈ K)
    (hclosed : ∀ x ∈ K, ∀ c, NearCaller (table n.callers) x c → c ∈ K)
    (hx : (ss.spreadModule table mod).HasMethod mod x) : x ∈ K := by
  have hrun := spreadModule_induction table
    (P := fun _ ss => (ss.node? mod).isSome ∧ ∀ x, ss.HasMethod mod x → x ∈ K) hn hfollowed
    ?_ ?_ ⟨by rw [hn]; rfl, hold⟩
  · obtain ⟨_, -, rfl, ⟨-, hK⟩, -⟩ := hrun
    exact hK x hx
  · rintro - ss' method hmethod ⟨hmod, hP⟩
    refine ⟨((Added.refl hmod).addCallers method).node, fun x hx => ?_⟩
    exact ((hasMethod_addCallers hmod).mp hx).elim (hP x) (hclosed method (hP method hmethod) x)
  · rintro - ss' ⟨hmod, hP⟩
    refine ⟨(widens_markFollowed mod ss').isSome mod ▸ hmod, fun x hx => hP x ?_⟩
    rwa [HasMethod, links?_markFollowed] at hx

/-- The methods of a module end as the least set that has the earlier methods and the callers of its
members in the module. Any number of rounds from the bound on gives the same. -/
theorem spreadModule_isLeast (table : Callers) (hn : ss.node? mod = some n)
    (hfollowed : n.followed ≠ n.methodUsers.size) :
    (∀ fuel ≥ roundBound n (table n.callers),
        spreadRounds mod (table n.callers) fuel [] ss = ss.spreadModule table mod) ∧
      IsLeast {K : Set String | (∀ x, ss.HasMethod mod x → x ∈ K) ∧
          ∀ x ∈ K, ∀ c, NearCaller (table n.callers) x c → c ∈ K}
        {x | (ss.spreadModule table mod).HasMethod mod x} ∧
      (∀ x c, (ss.spreadModule table mod).HasMethod mod x → NearCaller (table n.callers) x c →
        mod ∈ (ss.spreadModule table mod).entries c) ∧
      (∃ n', (ss.spreadModule table mod).node? mod = some n' ∧
        (n'.methodUsers.isEmpty = false → n'.followed = n'.methodUsers.size)) ∧
      ∀ X, X ≠ mod → (ss.spreadModule table mod).node? X = ss.node? X := by
  obtain ⟨_, seen, rfl, hadded, hseen, hmore, hlast⟩ := spreadModule_induction table
    (P := fun seen => Added mod ss (seen.flatMap (nearCallers (table n.callers)))) hn hfollowed
    (fun seen ss' method _ hP => by simpa using hP.addCallers method)
    (fun seen _ hP => hP.adjustNode (f := fun n => { n with followed := n.methodUsers.size })
      fun _ => rfl) (Added.refl (by rw [hn]; rfl))
  have hnear {x c : String} (hx : (ss.spreadModule table mod).HasMethod mod x)
      (hc : NearCaller (table n.callers) x c) : c ∈ seen.flatMap (nearCallers (table n.callers)) :=
    List.mem_flatMap.mpr ⟨x, hseen x hx, mem_nearCallers.mpr hc⟩
  refine ⟨hmore, ⟨⟨fun x hx => ?_, fun x hx c hc => ?_⟩, fun K ⟨hold, hclosed⟩ x hx => ?_⟩,
    fun x c hx hc => ?_, ?_, hadded.others⟩
  · exact (hadded.methods x).mpr (.inl hx)
  · exact (hadded.methods c).mpr (.inr (hnear hx hc))
  · exact mem_of_spreadModule hn hfollowed hold hclosed hx
  · exact (hadded.entries c mod).mpr (.inr ⟨hnear hx hc, rfl⟩)
  · obtain ⟨n', hn'⟩ := Option.isSome_iff_exists.mp hadded.node
    refine ⟨n', hn', fun hsome => ?_⟩
    rcases hlast with ⟨rfl, -⟩ | hall
    · obtain ⟨x, l, hx⟩ := Table.exists_get?_of_isEmpty hsome
      cases hseen x (hasMethod_iff.mpr ⟨n', hn', Table.contains_of_get? hx⟩)
    · exact hall n' hn'

end Module

/-- Callers in a circle: `f` is called by `g` and `h`, and `g` by `k` and `f`. -/
def forkedNode : SinkNode where
  methodUsers := Table.ofList [("f", ⟨0, 1⟩)]
  callers := .own (Table.ofList [("f", ["g", "h"]), ("g", ["k", "f", "b#m"])])

def forked : Sinks where
  pool := { sets := [["os:popen"], []] }
  nodes := Table.ofList [("a", forkedNode)]

theorem spreadModule_isLeast_forked :
    forked.node? "a" = some forkedNode ∧ forkedNode.followed ≠ forkedNode.methodUsers.size ∧
      IsLeast {K : Set String | (∀ x, forked.HasMethod "a" x → x ∈ K) ∧
          ∀ x ∈ K, ∀ c, NearCaller (ownCallers forkedNode.callers) x c → c ∈ K}
        {x | (forked.spreadModule ownCallers "a").HasMethod "a" x} ∧
      "a" ∈ (forked.spreadModule ownCallers "a").entries "k" := by
  have hn : forked.node? "a" = some forkedNode := rfl
  obtain ⟨-, hleast, hentries, -⟩ := spreadModule_isLeast ownCallers hn (by decide)
  exact ⟨hn, by decide, hleast, hentries "g" "k" (by decide +kernel) (by decide +kernel)⟩

/-! ### Links -/

def ownPlaces (n : SinkNode) : List SetId := n.methodUsers.entries.flatMap fun d => Links.places d.2

/-- What is noted on one side of the links of a method. -/
def noted (side : Links → SetId) (ss : Sinks) (mod method : String) : Names :=
  ((ss.links? mod method).map fun l => ss.setOf (side l)).getD []

def SameLinks (ss : Sinks) (mod x y : String) : Prop :=
  ∃ l, ss.links? mod x = some l ∧ ss.links? mod y = some l

lemma mem_setOf_insertIn {name : String} (hl : ss.links? mod method = some l)
    (hplace : side l < ss.pool.sets.length) :
    e ∈ (insertIn side mod method name ss).setOf i ↔ e ∈ ss.setOf i ∨ i = side l ∧ e = name := by
  unfold insertIn setOf
  rw [hl]
  simp only [adjustSet, Pool.get, Pool.modify, getD_eq_getElem?_getD, getElem?_modify]
  by_cases hi : side l = i
  · subst hi
    simp [getElem?_eq_getElem hplace, mem_insertEnd_iff, or_comm]
  · simp [hi, Ne.symm hi]

lemma length_insertIn (side : Links → SetId) (mod method name : String) (ss : Sinks) :
    (insertIn side mod method name ss).pool.sets.length = ss.pool.sets.length := by
  unfold insertIn
  split
  · exact Pool.length_modify ..
  · rfl

lemma pool_shareLinks (mod caller : String) (shared : Links) (ss : Sinks) :
    (shareLinks mod caller shared ss).pool = ss.pool := by
  unfold shareLinks
  split <;> rfl

lemma length_addCaller (mod method : String) (shared : Links) (ss : Sinks) (caller : String) :
    (addCaller mod method shared ss caller).pool.sets.length = ss.pool.sets.length := by
  rw [addCaller]
  change (insertIn _ _ _ _ _).pool.sets.length = _
  rw [length_insertIn]
  change (insertIn _ _ _ _ _).pool.sets.length = _
  rw [length_insertIn, pool_shareLinks]

lemma mem_setOf_addCaller {lc lm : Links}
    (hlc : (addCaller mod method shared ss caller).links? mod caller = some lc)
    (hlm : (addCaller mod method shared ss caller).links? mod method = some lm)
    (hc : lc.callees < ss.pool.sets.length) (hm : lm.callers < ss.pool.sets.length) :
    e ∈ (addCaller mod method shared ss caller).setOf i
      ↔ e ∈ ss.setOf i ∨ i = lc.callees ∧ e = mod ++ ":" ++ method ∨
        i = lm.callers ∧ e = mod ++ ":" ++ caller := by
  rw [links?_eq_of_nodes (nodes_addCaller ..), links?_shareModules] at hlc hlm
  rw [addCaller]
  change e ∈ (insertIn _ _ _ _ _).setOf i ↔ _
  rw [mem_setOf_insertIn]
  · change e ∈ (insertIn _ _ _ _ _).setOf i ∨ _ ↔ _
    rw [mem_setOf_insertIn hlc (by rwa [pool_shareLinks]), setOf, pool_shareLinks, or_assoc]
    rfl
  · rw [← hlm]
    exact links?_eq_of_nodes (nodes_insertIn ..) ..
  · change _ < (insertIn _ _ _ _ _).pool.sets.length
    rwa [length_insertIn, pool_shareLinks]

lemma mem_setOf_newLinks (ss : Sinks) : e ∈ (ss.newLinks [] []).1.setOf i ↔ e ∈ ss.setOf i := by
  have halloc (p : Pool) : e ∈ (p.alloc []).1.get i ↔ e ∈ p.get i := by
    simp only [Pool.alloc, Pool.get, getD_eq_getElem?_getD, getElem?_append]
    split_ifs with h
    · rfl
    · simp only [getElem?_eq_none (Nat.le_of_not_lt h)]
      cases i - p.sets.length <;> simp
  exact (halloc _).trans (halloc _)

section Recorded

variable {ss₀ : Sinks} {S S' : String → Links → Prop} {done : List (String × String)}

abbrev Uses (mod : String) (ss : Sinks) : String → Links → Prop :=
  fun x l => ss.links? mod x = some l

/-- The links that a method has, or gets as a new caller of `method`. -/
def Offered (callers : NameTable) (mod method : String) (shared : Links) (ss : Sinks) :
    String → Links → Prop :=
  fun x l => Uses mod ss x l ∨ ¬ ss.HasMethod mod x ∧ NearCaller callers method x ∧ l = shared

/-- Links are old ones or new sets, and only new callers of one method share them. -/
structure Parted (callers : NameTable) (mod : String) (ss₀ : Sinks)
    (S : String → Links → Prop) (ss : Sinks) : Prop where
  placed : ∀ x l, S x l → l.callees < ss.pool.sets.length ∧ l.callers < ss.pool.sets.length
  origin : ∀ x l, S x l → Uses mod ss₀ x l ∨
    ¬ ss₀.HasMethod mod x ∧ ss₀.pool.sets.length ≤ l.callees ∧ ss₀.pool.sets.length ≤ l.callers
  sides : ∀ x l y l', S x l → S y l' → l.callees ≠ l'.callers
  shared : ∀ x l y l', S x l → S y l' → l.callees = l'.callees ∨ l.callers = l'.callers →
    x = y ∨ l = l' ∧ ∃ p, ss.HasMethod mod p ∧ NearCaller callers p x ∧ NearCaller callers p y

lemma Parted.mono {ss' : Sinks} (h : Parted callers mod ss₀ S ss) (hS : ∀ x l, S' x l → S x l)
    (hmethods : ∀ p, ss.HasMethod mod p → ss'.HasMethod mod p)
    (hsize : ss'.pool.sets.length = ss.pool.sets.length) : Parted callers mod ss₀ S' ss' where
  placed x l hl := hsize ▸ h.placed x l (hS x l hl)
  origin x l hl := h.origin x l (hS x l hl)
  sides x l y l' hl hl' := h.sides x l y l' (hS x l hl) (hS y l' hl')
  shared x l y l' hl hl' heq := by
    refine (h.shared x l y l' (hS x l hl) (hS y l' hl') heq).imp_right fun ⟨heq, p, hp, hnear⟩ => ?_
    exact ⟨heq, p, hmethods p hp, hnear⟩

lemma Parted.eq (h : Parted callers mod ss₀ (Uses mod ss) ss) {l' : Links} (hl : Uses mod ss x l)
    (hl' : Uses mod ss y l') (heq : l.callees = l'.callees ∨ l.callers = l'.callers) : l = l' := by
  rcases h.shared x l y l' hl hl' heq with rfl | ⟨heq, -⟩
  · exact Option.some.inj (hl.symm.trans hl')
  · exact heq

/-- The calls `done` are noted, each at the links of its two methods, and nothing else is. -/
structure Recorded (callers : NameTable) (mod : String) (ss₀ : Sinks)
    (S : String → Links → Prop) (done : List (String × String)) (ss : Sinks) : Prop where
  node : (ss.node? mod).isSome = true
  size : ss₀.pool.sets.length ≤ ss.pool.sets.length
  parted : Parted callers mod ss₀ S ss
  held : ∀ x l, Uses mod ss x l → S x l
  kept : ∀ x l, Uses mod ss₀ x l → Uses mod ss x l
  known : ∀ d ∈ done, ss.HasMethod mod d.1 ∧ ss.HasMethod mod d.2
  sets : ∀ i e, e ∈ ss.setOf i ↔ e ∈ ss₀.setOf i ∨ ∃ d ∈ done, ∃ l,
    Uses mod ss d.2 l ∧ i = l.callees ∧ e = mod ++ ":" ++ d.1 ∨
      Uses mod ss d.1 l ∧ i = l.callers ∧ e = mod ++ ":" ++ d.2

lemma Recorded.newLinks (h : Recorded callers mod ss₀ (Uses mod ss) done ss)
    (hmethod : ss.HasMethod mod method) :
    Recorded callers mod ss₀ (Offered callers mod method (ss.newLinks [] []).2
      (ss.newLinks [] []).1)
      done (ss.newLinks [] []).1 := by
  have hlength : (ss.newLinks [] []).1.pool.sets.length = ss.pool.sets.length + 2 := by
    simp [Sinks.newLinks, newSet, Pool.alloc]
  have hcallees : (ss.newLinks [] []).2.callees = ss.pool.sets.length := rfl
  have hcallers : (ss.newLinks [] []).2.callers = ss.pool.sets.length + 1 := by
    simp [Sinks.newLinks, newSet, Pool.alloc]
  have hsize := h.size
  have hplaced := h.parted.placed
  refine ⟨h.node, by grind, ⟨?_, ?_, ?_, ?_⟩, fun _ _ => .inl, h.kept, h.known, ?_⟩
  · rintro x l (hl | ⟨-, -, rfl⟩)
    · have := hplaced x l hl
      grind
    · grind
  · rintro x l (hl | ⟨hx, -, rfl⟩)
    · exact h.parted.origin x l hl
    · refine .inr ⟨fun hold => hx ?_, by grind, by grind⟩
      obtain ⟨l, hl⟩ := Option.isSome_iff_exists.mp hold
      exact Option.isSome_of_eq_some (h.kept x l hl)
  · rintro x l y l' (hl | ⟨-, -, rfl⟩) (hl' | ⟨-, -, rfl⟩)
    · exact h.parted.sides x l y l' hl hl'
    · have := hplaced x l hl
      grind
    · have := hplaced y l' hl'
      grind
    · grind
  · rintro x l y l' (hl | ⟨-, hx, rfl⟩) (hl' | ⟨-, hy, rfl⟩) heq
    · exact h.parted.shared x l y l' hl hl' heq
    · have := hplaced x l hl
      grind
    · have := hplaced y l' hl'
      grind
    · exact .inr ⟨rfl, method, hmethod, hx, hy⟩
  · intro i e
    rw [mem_setOf_newLinks]
    exact h.sets i e

lemma Recorded.addCaller
    (h : Recorded callers mod ss₀ (Offered callers mod method shared ss) done ss)
    (hmethod : ss.HasMethod mod method) (hcaller : NearCaller callers method caller) :
    Recorded callers mod ss₀ (Offered callers mod method shared
      (addCaller mod method shared ss caller))
      (done ++ [(method, caller)]) (addCaller mod method shared ss caller) := by
  have hadded := (Added.refl h.node).addCaller method caller shared
  have hmethods := fun x hx => (hadded.methods x).mpr (.inl hx)
  have hlinks := links?_addCaller h.node method caller shared
  have hsize := length_addCaller mod method shared ss caller
  have hold (x : String) (l : Links) (hl : Uses mod ss x l) :
      Uses mod (Sinks.addCaller mod method shared ss caller) x l := by
    rw [Uses, hlinks]
    split_ifs with hx
    · rw [← hx, hl]
      rfl
    · exact hl
  have hsame {x : String} (hx : ss.HasMethod mod x) :
      (Sinks.addCaller mod method shared ss caller).links? mod x = ss.links? mod x := by
    obtain ⟨l, hl⟩ := Option.isSome_iff_exists.mp hx
    rw [hl, hold x l hl]
  have hoffered (x : String) (l : Links)
      (hl : Offered callers mod method shared (Sinks.addCaller mod method shared ss caller) x l) :
      Offered callers mod method shared ss x l := by
    rcases hl with hl | ⟨hx, hnear⟩
    · rw [Uses, hlinks] at hl
      split_ifs at hl with hx
      · subst hx
        cases hl' : ss.links? mod x with
        | some l' =>
          rw [hl'] at hl
          exact .inl (hl'.trans hl)
        | none =>
          rw [hl'] at hl
          exact .inr ⟨by simp [HasMethod, hl'], hcaller, (Option.some.inj hl).symm⟩
      · exact .inl hl
    · exact .inr ⟨fun hx' => hx (hmethods x hx'), hnear⟩
  have hparted := h.parted.mono hoffered hmethods hsize
  obtain ⟨lc, hlc⟩ := Option.isSome_iff_exists.mp ((hadded.methods caller).mpr (.inr (by simp)))
  obtain ⟨lm, hlm⟩ := Option.isSome_iff_exists.mp (hmethods method hmethod)
  refine ⟨hadded.node, hsize ▸ h.size, hparted, fun _ _ => .inl,
    fun x l hl => hold x l (h.kept x l hl), fun d hd => ?_, fun i e => ?_⟩
  · rcases mem_append.mp hd with hd | hd
    · exact (h.known d hd).imp (hmethods _) (hmethods _)
    · rw [mem_singleton.mp hd]
      exact ⟨Option.isSome_of_eq_some hlm, Option.isSome_of_eq_some hlc⟩
  · rw [mem_setOf_addCaller hlc hlm (hsize ▸ (hparted.placed caller lc (.inl hlc)).1)
      (hsize ▸ (hparted.placed method lm (.inl hlm)).2), h.sets, or_assoc]
    refine or_congr_right ?_
    constructor
    · rintro (⟨d, hd, l, hl⟩ | hnew)
      · refine ⟨d, mem_append_left _ hd, l, ?_⟩
        exact hl.imp (And.imp_left (hold _ l)) (And.imp_left (hold _ l))
      · refine ⟨(method, caller), by simp, ?_⟩
        exact hnew.elim (fun h => ⟨lc, .inl ⟨hlc, h⟩⟩) fun h => ⟨lm, .inr ⟨hlm, h⟩⟩
    · rintro ⟨d, hd, l, hl⟩
      rcases mem_append.mp hd with hd | hd
      · rw [Uses, Uses, hsame (h.known d hd).1, hsame (h.known d hd).2] at hl
        exact .inl ⟨d, hd, l, hl⟩
      · rw [mem_singleton.mp hd, Uses, Uses, hlc, hlm] at hl
        refine .inr (hl.imp ?_ ?_)
        · rintro ⟨heq, hrest⟩
          rwa [Option.some.inj heq]
        · rintro ⟨heq, hrest⟩
          rwa [Option.some.inj heq]

lemma Recorded.addCallers (h : Recorded callers mod ss₀ (Uses mod ss) done ss)
    (hmethod : ss.HasMethod mod method) :
    Recorded callers mod ss₀ (Uses mod (addCallers mod callers ss method))
      (done ++ (nearCallers callers method).map (method, ·))
      (addCallers mod callers ss method) := by
  have hrun : Recorded callers mod ss₀ _ _ (Sinks.addCallers mod callers ss method) ∧
      (Sinks.addCallers mod callers ss method).HasMethod mod method :=
    addCallers_induction (P := fun cs ss' =>
        Recorded callers mod ss₀ (Offered callers mod method (ss.newLinks [] []).2 ss')
          (done ++ cs.map (method, ·)) ss' ∧ ss'.HasMethod mod method)
      ⟨by simpa using h.newLinks hmethod, hmethod⟩
      fun cs ss' caller hcaller ⟨hP, hmethod⟩ => by
        have hadded := (Added.refl hP.node).addCaller method caller (ss.newLinks [] []).2
        exact ⟨by simpa using hP.addCaller hmethod hcaller, (hadded.methods _).mpr (.inl hmethod)⟩
  exact { hrun.1 with
    parted := hrun.1.parted.mono (fun _ _ => .inl) (fun _ => id) rfl
    held := fun _ _ => id }

lemma Recorded.mark (h : Recorded callers mod ss₀ (Uses mod ss) done ss) :
    Recorded callers mod ss₀ (Uses mod (markFollowed mod ss)) done (markFollowed mod ss) := by
  have hlinks (x : String) := links?_markFollowed mod ss mod x
  have hadded := (Added.refl h.node).adjustNode (f := fun n =>
    { n with followed := n.methodUsers.size })
    fun _ => rfl
  refine ⟨hadded.node, h.size, h.parted.mono (fun x l hl => ?_) (fun p _ => ?_) rfl, fun _ _ => id,
    fun x l hl => ?_, fun d hd => ?_, fun i e => ?_⟩
  · rwa [Uses, hlinks] at hl
  · rwa [HasMethod, hlinks]
  · rw [Uses, hlinks]
    exact h.kept x l hl
  · rw [HasMethod, HasMethod, hlinks, hlinks]
    exact h.known d hd
  · simp only [Uses, hlinks]
    exact h.sets i e

lemma Recorded.before (h : Recorded callers mod ss₀ S done ss)
    (hside : ∀ l : Links, side l = l.callees ∨ side l = l.callers) (hl : Uses mod ss x l) :
    e ∈ ss₀.setOf (side l) ↔ e ∈ noted side ss₀ mod x := by
  unfold noted
  rcases h.parted.origin x l (h.held x l hl) with hold | ⟨hnew, hcallees, hcallers⟩
  · rw [hold]
    rfl
  · have hnone : ss₀.links? mod x = none := by simpa [HasMethod] using hnew
    have hfar : ss₀.pool.sets.length ≤ side l := by
      rcases hside l with heq | heq
      · rwa [heq]
      · rwa [heq]
    rw [hnone, setOf, Pool.get, getD_eq_getElem?_getD, getElem?_eq_none hfar]
    rfl

lemma Recorded.mem_noted (h : Recorded callers mod ss₀ S done ss)
    (hside : ∀ l : Links, side l = l.callees ∨ side l = l.callers) {Q : String → Prop}
    (hQ : ∀ l, Uses mod ss x l → ((∃ d ∈ done, ∃ l',
        Uses mod ss d.2 l' ∧ side l = l'.callees ∧ e = mod ++ ":" ++ d.1 ∨
          Uses mod ss d.1 l' ∧ side l = l'.callers ∧ e = mod ++ ":" ++ d.2)
      ↔ ∃ y, Uses mod ss y l ∧ Q y)) :
    e ∈ noted side ss mod x ↔ e ∈ noted side ss₀ mod x ∨ ∃ y, ss.SameLinks mod x y ∧ Q y := by
  cases hl : ss.links? mod x with
  | some l =>
    have hnoted : noted side ss mod x = ss.setOf (side l) := by
      unfold noted
      rw [hl]
      rfl
    rw [hnoted, h.sets, h.before hside hl, hQ l hl]
    simp [SameLinks, hl]
  | none =>
    have hnone : ss₀.links? mod x = none := by
      by_contra hsome
      obtain ⟨l, hold⟩ := Option.ne_none_iff_exists'.mp hsome
      cases hl.symm.trans (h.kept x l hold)
    simp [noted, SameLinks, hl, hnone]

end Recorded

section Module

variable {table : Callers}

lemma eq_of_ownPlaces (hn : ss.node? mod = some n) (hown : (ownPlaces n).Nodup) {l' : Links}
    (hl : Uses mod ss x l) (hl' : Uses mod ss y l') (hi : i ∈ Links.places l)
    (hi' : i ∈ Links.places l') : x = y ∧ l = l' := by
  rw [Uses, links?, hn] at hl hl'
  exact Prod.mk.inj (eq_of_nodup_flatMap hown (Table.mem_entries_of_get? hl)
    (Table.mem_entries_of_get? hl') hi hi')

lemma recorded_of_own (callers : NameTable) (hn : ss.node? mod = some n)
    (hown : (ownPlaces n).Nodup)
    (hthere : ∀ i ∈ ownPlaces n, i < ss.pool.sets.length) :
    Recorded callers mod ss (Uses mod ss) [] ss := by
  have hentry {x : String} {l : Links} (hl : Uses mod ss x l) : (x, l) ∈ n.methodUsers.entries := by
    rw [Uses, links?, hn] at hl
    exact Table.mem_entries_of_get? hl
  have hplaces {x : String} {l : Links} (hl : Uses mod ss x l) (i : SetId)
      (hi : i ∈ Links.places l) :
      i < ss.pool.sets.length :=
    hthere i (mem_flatMap.mpr ⟨(x, l), hentry hl, hi⟩)
  refine ⟨by rw [hn]; rfl, le_rfl, ⟨fun x l hl => ?_, fun _ _ => .inl, ?_, ?_⟩, fun _ _ => id,
    fun _ _ => id, by simp, by simp⟩
  · exact ⟨hplaces hl _ (by simp [Links.places]), hplaces hl _ (by simp [Links.places])⟩
  · intro x l y l' hl hl' heq
    obtain ⟨-, rfl⟩ := eq_of_ownPlaces hn hown hl hl' mem_cons_self (by simp [Links.places, heq])
    have hnodup := (nodup_flatMap.mp hown).1 (x, l) (hentry hl)
    simp [Links.places, heq] at hnodup
  · rintro x l y l' hl hl' (heq | heq)
    · exact .inl (eq_of_ownPlaces hn hown hl hl' mem_cons_self (by simp [Links.places, heq])).1
    · refine .inl (eq_of_ownPlaces hn hown hl hl' (i := l.callers) ?_
        (by simp [Links.places, heq])).1
      simp [Links.places]

/-- If no two methods of a module share a set, then every call from a caller in the module is noted
for both its methods and for those that have the same links. -/
theorem spreadModule_notes_calls (table : Callers) (hn : ss.node? mod = some n)
    (hfollowed : n.followed ≠ n.methodUsers.size) (hown : (ownPlaces n).Nodup)
    (hthere : ∀ i ∈ ownPlaces n, i < ss.pool.sets.length) :
    (∀ m c, mod ++ ":" ++ c ∈ noted (·.callers) (ss.spreadModule table mod) mod m
      ↔ mod ++ ":" ++ c ∈ noted (·.callers) ss mod m ∨
        ∃ m', (ss.spreadModule table mod).SameLinks mod m m' ∧ NearCaller (table n.callers) m' c) ∧
    (∀ m c, mod ++ ":" ++ m ∈ noted (·.callees) (ss.spreadModule table mod) mod c
      ↔ mod ++ ":" ++ m ∈ noted (·.callees) ss mod c ∨
        ∃ c', (ss.spreadModule table mod).SameLinks mod c c' ∧
          (ss.spreadModule table mod).HasMethod mod m ∧ NearCaller (table n.callers) m c') ∧
    ∀ x y, x ≠ y → (ss.spreadModule table mod).SameLinks mod x y →
      ¬ ss.HasMethod mod x ∧ ¬ ss.HasMethod mod y ∧
        ∃ p, (ss.spreadModule table mod).HasMethod mod p ∧
          NearCaller (table n.callers) p x ∧ NearCaller (table n.callers) p y := by
  have hstart := recorded_of_own (table n.callers) hn hown hthere
  obtain ⟨_, seen, rfl, hrec, hseen, -⟩ := spreadModule_induction table
    (P := fun seen ss' => Recorded (table n.callers) mod ss (Uses mod ss')
      (seen.flatMap fun m => (nearCallers (table n.callers) m).map (m, ·)) ss') hn hfollowed
    (fun seen _ _ hmethod hP => by simpa using hP.addCallers hmethod) (fun _ _ hP => hP.mark) hstart
  have hdone {m c : String} : (m, c) ∈ (seen.flatMap fun m =>
      (nearCallers (table n.callers) m).map (m, ·))
      ↔ (ss.spreadModule table mod).HasMethod mod m ∧ NearCaller (table n.callers) m c := by
    constructor
    · intro hmem
      refine ⟨(hrec.known _ hmem).1, ?_⟩
      obtain ⟨m', -, hc⟩ := List.mem_flatMap.mp hmem
      obtain ⟨c', hc', heq⟩ := List.mem_map.mp hc
      obtain ⟨rfl, rfl⟩ := Prod.mk.inj heq
      exact mem_nearCallers.mp hc'
    · rintro ⟨hm, hc⟩
      exact List.mem_flatMap.mpr ⟨m, hseen m hm, List.mem_map_of_mem (mem_nearCallers.mpr hc)⟩
  have hname {a b : String} (heq : mod ++ ":" ++ a = mod ++ ":" ++ b) : a = b :=
    (String.append_right_inj _).mp heq
  refine ⟨fun m c => hrec.mem_noted (fun _ => .inr rfl) fun l hl => ⟨?_, ?_⟩,
    fun m c => hrec.mem_noted (fun _ => .inl rfl) fun l hl => ⟨?_, ?_⟩, ?_⟩
  · rintro ⟨⟨p, d⟩, hd, l', ⟨hl', hplace, -⟩ | ⟨hl', hplace, heq⟩⟩
    · exact absurd hplace.symm (hrec.parted.sides d l' m l hl' hl)
    · obtain rfl := hrec.parted.eq hl hl' (.inr hplace)
      obtain rfl := hname heq
      exact ⟨p, hl', (hdone.mp hd).2⟩
  · rintro ⟨y, hy, hnear⟩
    exact ⟨(y, c), hdone.mpr ⟨Option.isSome_of_eq_some hy, hnear⟩, l, .inr ⟨hy, rfl, rfl⟩⟩
  · rintro ⟨⟨p, d⟩, hd, l', ⟨hl', hplace, heq⟩ | ⟨hl', hplace, -⟩⟩
    · obtain rfl := hrec.parted.eq hl hl' (.inl hplace)
      obtain rfl := hname heq
      exact ⟨d, hl', hdone.mp hd⟩
    · exact absurd hplace (hrec.parted.sides c l p l' hl hl')
  · rintro ⟨y, hy, hnear⟩
    exact ⟨(m, y), hdone.mpr hnear, l, .inl ⟨hy, rfl, rfl⟩⟩
  · rintro x y hne ⟨l, hx, hy⟩
    have hnew {x y : String} (hne : x ≠ y) (hx : Uses mod (ss.spreadModule table mod) x l)
        (hy : Uses mod (ss.spreadModule table mod) y l) : ¬ ss.HasMethod mod x := by
      intro hold
      obtain ⟨l₀, hl₀⟩ := Option.isSome_iff_exists.mp hold
      obtain rfl : l₀ = l := Option.some.inj ((hrec.kept x l₀ hl₀).symm.trans hx)
      rcases hrec.parted.origin y l₀ hy with hy₀ | ⟨-, hfar, -⟩
      · exact hne (eq_of_ownPlaces hn hown hl₀ hy₀ (by simp [Links.places]) List.mem_cons_self).1
      · exact absurd (hstart.parted.placed x l₀ hl₀).1 (Nat.not_lt.mpr hfar)
    refine ⟨hnew hne hx hy, hnew hne.symm hy hx, ?_⟩
    exact ((hrec.parted.shared x l y l hx hy (.inl rfl)).resolve_left hne).2

end Module

theorem spreadModule_notes_calls_forked :
    forked.node? "a" = some forkedNode ∧ forkedNode.followed ≠ forkedNode.methodUsers.size ∧
      (ownPlaces forkedNode).Nodup ∧ (∀ i ∈ ownPlaces forkedNode, i < forked.pool.sets.length) ∧
      "a:k" ∈ noted (·.callers) (forked.spreadModule ownCallers "a") "a" "g" := by
  have hn : forked.node? "a" = some forkedNode := rfl
  obtain ⟨hcallers, -⟩ :=
    spreadModule_notes_calls ownCallers hn (by decide) (by decide) (by decide)
  refine ⟨hn, by decide, by decide, by decide, (hcallers "g" "k").mpr
    (.inr ⟨"g", ?_, by decide +kernel⟩)⟩
  exact ⟨⟨2, 3⟩, rfl, rfl⟩

/-- The caller `k` of `g` is noted for `h` too, which shares the links of `g` and has no caller. -/
theorem forked_notes_stray_call :
    forkedNode.followed ≠ forkedNode.methodUsers.size ∧ (ownPlaces forkedNode).Nodup ∧
      "a:k" ∈ noted (·.callers) (forked.spreadModule ownCallers "a") "a" "h" ∧
      "a:k" ∉ noted (·.callers) forked "a" "h" ∧
      ¬ NearCaller (ownCallers forkedNode.callers) "h" "k" := by
  refine ⟨by decide, by decide, ?_, ?_, ?_⟩
  all_goals decide +kernel

end Sinks

end SinkTrace
