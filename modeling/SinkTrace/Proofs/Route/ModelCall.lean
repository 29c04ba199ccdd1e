import Mathlib.Data.List.Chain
import SinkTrace.Proofs.Data.Table
import SinkTrace.Proofs.Depth
import SinkTrace.Route.ModelCall

/-!
# The search for a call of the model

If every callee that the search meets is listed, it finds a chain to a call of the model wherever
there is one. Circles of callees do not matter: a chain that goes back to a method can leave out the
way there, so the search may pass over what is on its path.
-/

namespace SinkTrace

open Act Relation List

namespace ModelLinks

variable {links : ModelLinks} {module method name : String} {cs : Names}

lemma split_ne_tooDeep : split name ≠ .error .tooDeep := by
  unfold split
  split <;> simp

lemma calleesOf_ne_tooDeep : links.calleesOf module method ≠ .error .tooDeep := by
  unfold calleesOf
  split <;> simp

lemma calleesOf_subset (h : links.calleesOf module method = .ok cs) :
    cs ⊆ links.values.flatMap fun t => t.values.flatten := by
  unfold calleesOf at h
  split at h
  · cases h
    rename_i hget
    obtain ⟨t, ht, hcs⟩ := Option.bind_eq_some_iff.mp hget
    intro c hc
    refine mem_flatMap.mpr ⟨t, Table.mem_values_of_get? ht, ?_⟩
    exact mem_flatten.mpr ⟨cs, Table.mem_values_of_get? hcs, hc⟩
  · cases h

end ModelLinks

namespace ModelSearch

open ModelLinks

variable {links : ModelLinks} {c : String} {callees rest : Names} {s : ModelSearch} {fuel : Nat}
  {visit : Names → Act ModelSearch Unit} {path : List String}

/-! ### Runs -/

lemma tryCallees_of_mem (h : c ∈ s.path) :
    tryCallees links visit (c :: rest) s = tryCallees links visit rest s := by
  simp [tryCallees, run_bind, h]

lemma tryCallees_of_not_mem (h : c ∉ s.path) : tryCallees links visit (c :: rest) s =
      match split c with
      | .error e => (.error e, s)
      | .ok (module, method) =>
        if module = modelModule then (.ok (), record { s with path := c :: s.path })
        else
          match links.calleesOf module method with
          | .error e => (.error e, { s with path := c :: s.path })
          | .ok cs =>
            match visit cs { s with path := c :: s.path } with
            | (.error e, t) => (.error e, t)
            | (.ok _, t) =>
              if modelMethod ∈ t.path then (.ok (), t)
              else tryCallees links visit rest { t with path := t.path.tail } := by
  simp only [tryCallees, run_bind, run_get, contains_eq_mem, decide_eq_true_eq, h, if_false]
  cases split c with
  | error e => rfl
  | ok p =>
    obtain ⟨module, method⟩ := p
    refine (run_ite _ _ _ _).trans ?_
    dsimp only
    split_ifs
    · rfl
    · cases links.calleesOf module method with
      | error e => rfl
      | ok cs =>
        refine (run_bind (a := visit cs)).trans ?_
        dsimp only
        rcases visit cs { s with path := c :: s.path } with ⟨e | v, t⟩
        · rfl
        · exact run_ite (modelMethod ∈ t.path) _ _ t

lemma unmet_lt_depth (links : ModelLinks) (callees : Names) (path : List String) :
    unmet (callees ++ links.values.flatMap fun t => t.values.flatten) path <
    depth links callees := by
  have hle := length_filter_le (· ∉ path) (callees ++ links.values.flatMap fun t =>
    t.values.flatten)
  rw [length_append] at hle
  exact Nat.lt_succ_of_le hle

/-- A method is on the path once, so their number bounds the nesting. -/
lemma ends_search {all : List String} (hall : (links.values.flatMap fun t =>
    t.values.flatten) ⊆ all)
    (hcallees : callees ⊆ all) (hfuel : unmet all s.path < fuel) :
    EndsBounded (fun t => s.path <:+ t.path) Any (search links fuel callees s) := by
  induction fuel generalizing s callees with
  | zero => cases hfuel
  | succ fuel ih =>
    suffices ∀ t : ModelSearch, s.path <:+ t.path → EndsBounded (fun t => s.path <:+ t.path)
      Any (tryCallees links (search links fuel) callees t) from this s suffix_rfl
    induction callees with
    | nil => exact fun t ht => ⟨ht, trivial⟩
    | cons c rest ihrest =>
      obtain ⟨hc, hrest⟩ := cons_subset.mp hcallees
      intro t ht
      by_cases hmem : c ∈ t.path
      · rw [tryCallees_of_mem hmem]
        exact ihrest hrest t ht
      rw [tryCallees_of_not_mem hmem]
      have hpush : s.path <:+ c :: t.path := ht.trans (suffix_cons c _)
      cases hsplit : split c with
      | error e => exact ⟨ht, fun he => split_ne_tooDeep (he ▸ hsplit)⟩
      | ok p =>
        dsimp only
        split_ifs
        · exact ⟨hpush, trivial⟩
        cases hcs : links.calleesOf p.1 p.2 with
        | error e => exact ⟨hpush, fun he => calleesOf_ne_tooDeep (he ▸ hcs)⟩
        | ok cs =>
          have hlt : unmet all (c :: t.path) < unmet all s.path :=
            unmet_lt hc (fun h => hmem (ht.subset h)) (cons_subset_cons c ht.subset)
          have hend := ih (s := { t with path := c :: t.path })
            (Subset.trans (calleesOf_subset hcs) hall)
            (by dsimp only; omega)
          dsimp only
          generalize search links fuel cs { t with path := c :: t.path } = r at hend ⊢
          obtain ⟨e | v, u⟩ := r
          · exact ⟨hpush.trans hend.1, hend.2⟩
          · dsimp only
            split_ifs
            · exact ⟨hpush.trans hend.1, trivial⟩
            · refine ihrest hrest _ (ht.trans ?_)
              obtain ⟨_ | ⟨_, above⟩, happend⟩ := hend.1
              · rw [← happend]
                exact suffix_rfl
              · rw [← happend]
                exact (suffix_cons c _).trans (suffix_append above _)

lemma chains_ne_tooDeep (links : ModelLinks) (method : String) (callees : Names) :
    chains links method callees ≠ .error .tooDeep := by
  have hend : EndsBounded (fun t => [method] <:+ t.path) Any
      (search links (depth links callees) callees { path := [method] }) :=
    ends_search (subset_append_right callees _) (subset_append_left ..) (unmet_lt_depth ..)
  unfold chains
  rcases hrun : search links (depth links callees) callees { path := [method] } with ⟨e | v, t⟩
  · rw [hrun] at hend
    exact fun h => hend.2 (Except.error.inj h)
  · simp [Except.map]

/-! ### Chains of callees -/

/-- The callee is listed for the method. -/
def Calls (links : ModelLinks) (a b : String) : Prop :=
  ∃ module method cs, split a = .ok (module, method) ∧
  links.calleesOf module method = .ok cs ∧ b ∈ cs

/-- The method calls the model, or it is one whose callees are listed. -/
def Listed (links : ModelLinks) (name : String) : Prop :=
  name = modelMethod ∨ ∃ module method cs, split name = .ok (module, method) ∧
    module ≠ modelModule ∧ links.calleesOf module method = .ok cs

/-- A chain from one of the callees to a call of the model that avoids the path. -/
def Reaches (links : ModelLinks) (path : List String) (callees : Names) : Prop :=
  ∃ a ∈ callees, a ∉ path ∧ ReflTransGen (fun a b => Calls links a b ∧ b ∉ path) a modelMethod

/-- A chain that goes back to its start can leave out the way there. -/
lemma exists_without_start {R : String → String → Prop} {a b : String} (h : ReflTransGen R a b)
    (hne : a ≠ b) :
    ∃ a', R a a' ∧ a' ≠ a ∧ ReflTransGen (fun x y => R x y ∧ y ≠ a) a' b := by
  suffices ∀ x, ReflTransGen R x b → x ≠ a ∧ ReflTransGen (fun x y => R x y ∧ y ≠ a) x b ∨
      ∃ a', R a a' ∧ a' ≠ a ∧ ReflTransGen (fun x y => R x y ∧ y ≠ a) a' b by
    exact (this a h).resolve_left fun h => h.1 rfl
  intro x hx
  induction hx using ReflTransGen.head_induction_on with
  | refl => exact .inl ⟨hne.symm, .refl⟩
  | @head x y hxy _ ih =>
    rcases ih with ⟨hy, hyb⟩ | h
    · by_cases hxa : x = a
      · exact .inr ⟨y, hxa ▸ hxy, hy, hyb⟩
      · exact .inl ⟨hxa, hyb.head ⟨hxy, hy⟩⟩
    · exact .inr h

lemma not_reaches_of_mem (h : modelMethod ∈ path) : ¬ Reaches links path callees := by
  rintro ⟨a, -, ha, hchain⟩
  rcases hchain.cases_tail with rfl | ⟨b, -, -, hnot⟩
  · exact ha h
  · exact hnot h

lemma Reaches.of_callees {module method : String} {cs : Names} (h : Reaches links (c :: path) cs)
    (hsplit : split c = .ok (module, method)) (hcs : links.calleesOf module method = .ok cs)
    (hc : c ∉ path) : Reaches links path (c :: rest) := by
  obtain ⟨a, ha, hnot, hchain⟩ := h
  rw [mem_cons, not_or] at hnot
  refine ⟨c, mem_cons_self, hc, .head ⟨⟨module, method, cs, hsplit, hcs, ha⟩, hnot.2⟩ ?_⟩
  exact ReflTransGen.mono (fun _ _ hab => ⟨hab.1, fun hb =>
    hab.2 (mem_cons_of_mem c hb)⟩) _ _ hchain

lemma Reaches.cases {module method : String} {cs : Names} (h : Reaches links path (c :: rest))
    (hsplit : split c = .ok (module, method)) (hcs : links.calleesOf module method = .ok cs)
    (hne : c ≠ modelMethod) : Reaches links (c :: path) cs ∨ Reaches links path rest := by
  obtain ⟨a, ha, hnot, hchain⟩ := h
  rcases mem_cons.mp ha with rfl | ha
  · obtain ⟨b, ⟨⟨module', method', cs', hsplit', hcs', hb⟩, hbp⟩, hba, hbm⟩ :=
      exists_without_start hchain hne
    obtain ⟨rfl, rfl⟩ : module = module' ∧ method = method' := by simpa [hsplit] using hsplit'
    obtain rfl : cs = cs' := by simpa [hcs] using hcs'
    refine .inl ⟨b, hb, by simp [hba, hbp], ReflTransGen.mono
      (fun _ _ hxy => ⟨hxy.1.1, ?_⟩) _ _ hbm⟩
    simp [hxy.1.2, hxy.2]
  · exact .inr ⟨a, ha, hnot, hchain⟩

/-- What a search through callees leaves: nothing new if the model is out of reach, and else one
chain. -/
inductive Outcome (links : ModelLinks) (callees : Names) (s : ModelSearch) :
    Except Fault Unit × ModelSearch → Prop
  | none {t : ModelSearch} (hreach : ¬ Reaches links s.path callees) (hfound : t.found = s.found)
      (hpath : s.path <:+ t.path) (hsame : modelMethod ∉ s.path → t = s) :
      Outcome links callees s (.ok (), t)
  | one (a : String) (chain : List String) (hreach : Reaches links s.path callees)
      (ha : a ∈ callees)
      (hchain : (a :: chain).IsChain (Calls links))
      (hlast : (a :: chain).getLast? = some modelMethod)
      (hnodup : ((a :: chain).reverse ++ s.path).Nodup) :
      Outcome links callees s (.ok (), record { s with path := (a :: chain).reverse ++ s.path })

lemma Outcome.cons {r : Except Fault Unit × ModelSearch} (h : Outcome links rest s r)
    (hrest : Reaches links s.path (c :: rest) → Reaches links s.path rest) :
    Outcome links (c :: rest) s r := by
  cases h with
  | none hreach hfound hpath hsame => exact .none (fun h => hreach (hrest h)) hfound hpath hsame
  | one a chain hreach ha hchain hlast hnodup =>
    obtain ⟨b, hb, hmore⟩ := hreach
    exact .one _ _ ⟨b, mem_cons_of_mem c hb, hmore⟩ (mem_cons_of_mem c ha) hchain hlast hnodup

lemma split_modelMethod : split modelMethod = .ok (modelModule, "create") := by decide +kernel

lemma outcome_search {all : List String}
    (hlinks : ∀ module method cs, links.calleesOf module method = .ok cs → ∀ c ∈ cs, Listed links c)
    (hall : (links.values.flatMap fun t => t.values.flatten) ⊆ all) (hcallees : callees ⊆ all)
    (hlisted : ∀ c ∈ callees, Listed links c) (hpath : s.path.Nodup)
    (hfuel : unmet all s.path < fuel) : Outcome links callees s (search links fuel callees s) := by
  induction fuel generalizing s callees with
  | zero => cases hfuel
  | succ fuel ih =>
    unfold search
    induction callees with
    | nil => exact .none (by simp [Reaches]) rfl suffix_rfl fun _ => rfl
    | cons c rest ihrest =>
      obtain ⟨hc, hrest⟩ := cons_subset.mp hcallees
      obtain ⟨hcl, hrestl⟩ := forall_mem_cons.mp hlisted
      have hnext := ihrest hrest hrestl
      by_cases hmem : c ∈ s.path
      · rw [tryCallees_of_mem hmem]
        refine hnext.cons fun ⟨a, ha, hnot, hchain⟩ => ⟨a, ?_, hnot, hchain⟩
        exact (mem_cons.mp ha).resolve_left fun heq => hnot (heq ▸ hmem)
      rw [tryCallees_of_not_mem hmem]
      rcases hcl with rfl | ⟨module, method, cs, hsplit, hmod, hcs⟩
      · rw [split_modelMethod]
        exact .one _ [] ⟨_, mem_cons_self, hmem, .refl⟩ mem_cons_self (.singleton _) rfl
          (nodup_cons.mpr ⟨hmem, hpath⟩)
      simp only [hsplit, hmod, if_false, hcs]
      have hne : c ≠ modelMethod := by
        rintro rfl
        simp [split_modelMethod, hmod.symm] at hsplit
      have hlt : unmet all (c :: s.path) < unmet all s.path := unmet_lt hc hmem (Subset.refl _)
      have hend := ih (s := { s with path := c :: s.path })
        (Subset.trans (calleesOf_subset hcs) hall)
        (hlinks module method cs hcs) (nodup_cons.mpr ⟨hmem, hpath⟩) (by dsimp only; omega)
      generalize search links fuel cs { s with path := c :: s.path } = r at hend ⊢
      cases hend with
      | none hreach hfound hsuffix hsame =>
        dsimp only at hsuffix hsame ⊢
        by_cases hm : modelMethod ∈ s.path
        · rw [if_pos (hsuffix.subset (mem_cons_of_mem c hm))]
          exact .none (not_reaches_of_mem hm) hfound ((suffix_cons c _).trans hsuffix) (absurd hm)
        · have hm' : modelMethod ∉ c :: s.path := by simp [hm, hne.symm]
          rw [hsame hm', if_neg hm']
          exact hnext.cons fun h => (h.cases hsplit hcs hne).resolve_left hreach
      | one a chain hreach ha hchain hlast hnodup =>
        have hjoin : (a :: chain).reverse ++ c :: s.path = (c :: a :: chain).reverse ++
            s.path := by simp
        have hmem' : modelMethod ∈ (c :: a :: chain).reverse ++ s.path :=
          mem_append_left _ (mem_reverse.mpr (mem_cons_of_mem c (mem_of_getLast? hlast)))
        dsimp only [record] at hnodup ⊢
        rw [hjoin] at hnodup ⊢
        rw [if_pos hmem']
        exact .one c (a :: chain) (hreach.of_callees hsplit hcs hmem) mem_cons_self
          (.cons_cons ⟨module, method, cs, hsplit, hcs, ha⟩ hchain) hlast hnodup

/-- If all callees are listed, a search ends, and it finds one chain to a call of the model if there
is one that avoids the method it starts from. -/
theorem search_finds_model {links : ModelLinks} {callees : Names} (start : String)
    (hlinks : ∀ module method cs, links.calleesOf module method = .ok cs → ∀ c ∈ cs, Listed links c)
    (hlisted : ∀ c ∈ callees, Listed links c) :
    ∃ t, search links (depth links callees) callees { path := [start] } = (.ok (), t) ∧
      chains links start callees = .ok t.found ∧
      (Reaches links [start] callees → ∃ a ∈ callees, ∃ chain, t.found = [start :: a :: chain] ∧
        (start :: a :: chain).Nodup ∧ (a :: chain).IsChain (Calls links) ∧
        (a :: chain).getLast? = some modelMethod) ∧
      (¬ Reaches links [start] callees → t.found = [] ∧
        (start ≠ modelMethod → t.path = [start])) := by
  have hend : Outcome links callees { path := [start] }
      (search links (depth links callees) callees { path := [start] }) :=
    outcome_search hlinks (List.subset_append_right callees _) (List.subset_append_left ..) hlisted
      (List.nodup_singleton _) (unmet_lt_depth ..)
  unfold chains
  generalize search links (depth links callees) callees { path := [start] } = r at hend ⊢
  cases hend with
  | @none t hreach hfound hpath hsame =>
    refine ⟨t, rfl, by simp [hfound, Except.map], fun h => absurd h hreach, fun _ =>
      ⟨hfound, fun hne => ?_⟩⟩
    rw [hsame (by simpa using hne.symm)]
  | one a chain hreach ha hchain hlast hnodup =>
    refine ⟨_, rfl, ?_, fun _ => ⟨a, ha, chain, ?_, ?_, hchain, hlast⟩, fun h => absurd hreach h⟩
    · simp [record, Except.map]
    · simp [record]
    · simpa using List.nodup_reverse.mpr hnodup

/-- Two methods that call each other, and the second one the model. -/
def ring : ModelLinks := ⟨[("m", ⟨[("f", ["m:g"]), ("g", ["m:f", modelMethod])]⟩)]⟩

theorem ring_finds_model :
    (∀ module method cs, ring.calleesOf module method = .ok cs → ∀ c ∈ cs, Listed ring c) ∧
    (∀ c ∈ ["m:g"], Listed ring c) ∧ Reaches ring ["m:f"] ["m:g"] ∧
    ∃ chain, chains ring "m:f" ["m:g"] = .ok [chain] ∧ chain.Nodup := by
  have hsplit : split "m:g" = .ok ("m", "g") := by decide +kernel
  have hcs : ring.calleesOf "m" "g" = .ok ["m:f", modelMethod] := rfl
  have hg : Listed ring "m:g" := .inr ⟨"m", "g", _, hsplit, by decide, hcs⟩
  have hf : Listed ring "m:f" := .inr ⟨"m", "f", ["m:g"], by decide +kernel, by decide, rfl⟩
  have hlinks module method cs (h : ring.calleesOf module method = .ok cs) :
      ∀ c ∈ cs, Listed ring c := by
    intro c hc
    have hmem : c ∈ ["m:g", "m:f", modelMethod] := calleesOf_subset h hc
    simp only [List.mem_cons, List.not_mem_nil, or_false] at hmem
    rcases hmem with rfl | rfl | rfl
    · exact hg
    · exact hf
    · exact .inl rfl
  have hlisted : ∀ c ∈ ["m:g"], Listed ring c := by simpa using hg
  have hreach : Reaches ring ["m:f"] ["m:g"] :=
    ⟨"m:g", List.mem_cons_self, by decide, .single ⟨⟨"m", "g", _, hsplit, hcs, by simp⟩, by decide⟩⟩
  obtain ⟨t, -, hchains, hfinds, -⟩ := search_finds_model "m:f" hlinks hlisted
  obtain ⟨a, -, chain, hfound, hnodup, -⟩ := hfinds hreach
  exact ⟨hlinks, hlisted, hreach, _, hfound ▸ hchains, hnodup⟩

/-- A method without callees. -/
def lone : ModelLinks := ⟨[("m", ⟨[("f", [])]⟩)]⟩

/-- A method whose name has a colon. -/
def colon : ModelLinks := ⟨[("a", ⟨[("b:c", [modelMethod])]⟩)]⟩

/-- A search from the model itself leaves what it tried on the path, and one that meets a name with
two colons ends with a fault. -/
theorem model_keeps_path :
    let r := search lone (depth lone ["m:f"]) ["m:f"] { path := [modelMethod] }
    r.1 = .ok () ∧ r.2.found = [] ∧ r.2.path = ["m:f", modelMethod] ∧
      chains colon "m:f" ["a:b:c"] = .error .badValue := by decide +kernel

end ModelSearch
end SinkTrace
