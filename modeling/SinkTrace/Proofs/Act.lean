import Mathlib.Logic.Relation
import Mathlib.Tactic.SplitIfs
import SinkTrace.Fault

/-!
# Running actions

An action is a function of the state it starts in. These lemmas run the primitive actions and their
compositions, so that a proof about an action is a case analysis of the state and of the outcome.
-/

namespace SinkTrace

open List

/-- The condition that asks for nothing. -/
abbrev Any {α : Type} (_ : α) : Prop := True

namespace Act

open Relation

variable {σ τ α β : Type} {s t u : σ} {v : α} {as : List α} {a a' b b' : Act σ α}
  {f g : α → Act σ β}
  {p : α → Act σ Bool} {c : Prop} [Decidable c] {P : σ → Prop} {Q : α → σ → Prop} {e : Fault}

@[simp] lemma run_pure (v : α) (s : σ) : (pure v : Act σ α) s = (.ok v, s) := rfl

@[simp] lemma run_throw (e : Fault) (s : σ) : (throw e : Act σ α) s = (.error e, s) := rfl

@[simp] lemma run_get : (get : Act σ σ) s = (.ok s, s) := rfl

@[simp] lemma run_modify (f : σ → σ) (s : σ) : (modify f : Act σ Unit) s = (.ok (), f s) := rfl

@[simp] lemma run_need_some (e : Fault) (v : α) (s : σ) :
    (need e (some v) : Act σ α) s = (.ok v, s) := rfl

lemma run_bind :
    (a >>= f) s = match a s with | (.ok v, s') => f v s' | (.error e, s') => (.error e, s') := by
  simp only [bind, ExceptT.bind, ExceptT.mk, StateT.bind, ExceptT.bindCont]
  rcases a s with ⟨_ | _, _⟩ <;> rfl

lemma run_map (f : α → β) (a : Act σ α) (s : σ) : (f <$> a) s = match a s with
      | (.ok v, s') => (.ok (f v), s')
      | (.error e, s') => (.error e, s') := by
  rw [← bind_pure_comp, run_bind]
  rcases a s with ⟨_ | _, _⟩ <;> rfl

lemma run_ite (c : Prop) [Decidable c] (a b : Act σ α) (s : σ) :
    (if c then a else b) s = if c then a s else b s := by
  split_ifs <;> rfl

lemma run_forM_cons (f : α → Act σ Unit) (a : α) (as : List α) (s : σ) :
    (a :: as).forM f s = match f a s with
      | (.ok _, s') => as.forM f s'
      | (.error e, s') => (.error e, s') := by
  refine run_bind.trans ?_
  rcases f a s with ⟨_ | _, _⟩ <;> rfl

lemma forM_singleton (f : α → Act σ Unit) (a : α) : [a].forM f = f a := by
  funext s
  rw [run_forM_cons]
  rcases f a s with ⟨_ | _, _⟩ <;> rfl

lemma foldlM_singleton (f : β → α → Act σ β) (b : β) (a : α) : [a].foldlM f b = f b a := by
  rw [foldlM_cons]
  exact bind_pure _

lemma forM_map (f : β → Act σ Unit) (g : α → β) (as : List α) :
    (as.map g).forM f = as.forM fun a => f (g a) := by
  induction as with
  | nil => rfl
  | cons a as ih => exact congrArg (f (g a) >>= fun _ => ·) ih

lemma eq_of_toOption {r : Except Fault α × σ} (h : r.1.toOption = some v) : r = (.ok v, r.2) := by
  obtain ⟨_ | w, t⟩ := r
  · cases h
  · cases h
    rfl

/-! ### Actions as chains of steps -/

/-- The action takes a state by steps of `R` to the one it leaves, whether it ends well or not. -/
def Leads (R : σ → σ → Prop) (a : Act σ α) : Prop := ∀ s, ReflTransGen R s (a s).2

variable {R : σ → σ → Prop}

protected lemma Leads.pure : Leads R (pure v : Act σ α) := fun _ => .refl

protected lemma Leads.throw : Leads R (throw e : Act σ α) := fun _ => .refl

protected lemma Leads.get : Leads R (get : Act σ σ) := fun _ => .refl

protected lemma Leads.modify {f : σ → σ} (h : ∀ s, ReflTransGen R s (f s)) :
    Leads R (modify f : Act σ Unit) := h

lemma Leads.bind_from (ha : Leads R a) (hQ : ∀ s v t, a s = (.ok v, t) → Q v t)
    (hf : ∀ v t, Q v t → ReflTransGen R t (f v t).2) : Leads R (a >>= f) := by
  intro s
  have h := ha s
  rw [run_bind]
  rcases hr : a s with ⟨_ | v, s'⟩
  · rw [hr] at h
    exact h
  · rw [hr] at h
    exact h.trans (hf v s' (hQ s v s' hr))

lemma Leads.bind_of {P : α → Prop} (ha : Leads R a) (hP : ∀ s v t, a s = (.ok v, t) → P v)
    (hf : ∀ v, P v → Leads R (f v)) : Leads R (a >>= f) := ha.bind_from hP fun v t hv => hf v hv t

lemma Leads.bind (ha : Leads R a) (hf : ∀ v, Leads R (f v)) : Leads R (a >>= f) :=
  ha.bind_of (fun _ _ _ _ => trivial) fun v _ => hf v

lemma Leads.bind_pure {f : α → β} (ha : Leads R a) : Leads R (a >>= fun v => pure (f v)) :=
  ha.bind fun _ => .pure

lemma Leads.map (ha : Leads R a) {f : α → β} : Leads R (f <$> a) := by
  rw [← bind_pure_comp]
  exact ha.bind_pure

protected lemma Leads.get_bind {f : σ → Act σ α} (h : ∀ s, ReflTransGen R s (f s s).2) :
    Leads R (get >>= f) := h

protected lemma Leads.need {v : Option α} : Leads R (need e v) := by
  cases v with
  | none => exact .throw
  | some v => exact .pure

lemma Leads.orNone (h : Leads R a) : Leads R (orNone a) := by
  intro s
  have hstate : (Act.orNone a s).2 = (a s).2 := by
    unfold Act.orNone
    split <;> simp [*]
  rw [hstate]
  exact h s

lemma run_of_orNone (h : orNone a s = (.ok (some v), t)) : a s = (.ok v, t) := by
  unfold orNone at h
  rcases hr : a s with ⟨e | w, u⟩
  · rw [hr] at h
    cases h
  · rw [hr] at h
    cases h
    rfl

lemma Leads.ite (ha : Leads R a) (hb : Leads R b) : Leads R (if c then a else b) := by
  split_ifs
  · exact ha
  · exact hb

lemma Leads.or_pure (ha : Leads R a) : Leads R (if c then a else pure v) := ha.ite .pure

lemma Leads.pure_or (ha : Leads R a) : Leads R (if c then pure v else a) := Leads.pure.ite ha

lemma Leads.when {a : Act σ Unit} {f : Unit → Act σ α} (ha : Leads R a)
    (hf : Leads R (f ())) : Leads R (if c then a >>= f else f ()) := (ha.bind fun _ => hf).ite hf

lemma Leads.ite_bind (ha : Leads R a) (hb : Leads R b) (hf : ∀ v, Leads R (f v)) :
    Leads R (if c then a >>= f else b >>= f) := (ha.bind hf).ite (hb.bind hf)

lemma Leads.mono {R' : σ → σ → Prop} (h : Leads R a) (hR : ∀ s t, R s t → R' s t) : Leads R' a :=
  fun s => ReflTransGen.mono hR _ _ (h s)

lemma Leads.run (h : Leads R a) (hrefl : ∀ s, R s s) (htrans : ∀ s t u, R s t → R t u → R s u)
    (s : σ) :
    R s (a s).2 := by
  have hsteps := h s
  generalize (a s).2 = t at hsteps
  induction hsteps with
  | refl => exact hrefl s
  | tail _ hlast ih => exact htrans _ _ _ ih hlast

/-- The action leaves the state as it is. -/
abbrev Reads (a : Act σ α) : Prop := Leads (fun _ _ => False) a

lemma Reads.leads (h : Reads a) : Leads R a := h.mono fun _ _ => False.elim

lemma Reads.next (ha : Reads a) (hf : ∀ v, Leads R (f v)) : Leads R (a >>= f) := ha.leads.bind hf

lemma Reads.state_eq (h : Reads a) (s : σ) : (a s).2 = s :=
  (h.leads (R := fun s t => t = s)).run (fun _ => rfl) (fun _ _ _ hst htu => htu.trans hst) s

/-! ### Values -/

/-- An action that ends well gives a value with `P`. -/
def Gives (P : α → Prop) (a : Act σ α) : Prop := ∀ s v t, a s = (.ok v, t) → P v

protected lemma Gives.pure {P : α → Prop} (hv : P v) : Gives P (pure v : Act σ α) := by
  intro _ _ _ h
  cases h
  exact hv

lemma of_bind {w : β} (h : (a >>= f) s = (.ok w, u)) :
    ∃ v t, a s = (.ok v, t) ∧ f v t = (.ok w, u) := by
  rw [run_bind] at h
  rcases hr : a s with ⟨e | v, t⟩
  · rw [hr] at h
    cases h
  · rw [hr] at h
    exact ⟨v, t, rfl, h⟩

lemma of_get_bind {f : σ → Act σ α} (h : (get >>= f) s = (.ok v, t)) : f s s = (.ok v, t) := h

lemma exists_of_zoom {get : σ → τ} {set : τ → σ → σ} {a : Act τ α}
    (h : zoom get set a s = (.ok v, t)) :
    ∃ u, a (get s) = (.ok v, u) ∧ t = set u s := by
  unfold zoom at h
  rcases hrun : a (get s) with ⟨r, u⟩
  rw [hrun] at h
  cases h
  exact ⟨u, rfl, rfl⟩

lemma exists_of_forM_append {f : α → Act σ Unit} {bs : List α}
    (h : (as ++ bs).forM f s = (.ok (), u)) :
    ∃ t, as.forM f s = (.ok (), t) ∧ bs.forM f t = (.ok (), u) := by
  induction as generalizing s with
  | nil => exact ⟨s, rfl, h⟩
  | cons a as ih =>
    obtain ⟨_, t, hfirst, hrest⟩ := of_bind h
    obtain ⟨t', has, hbs⟩ := ih hrest
    refine ⟨t', ?_, hbs⟩
    rw [run_forM_cons, hfirst]
    exact has

lemma Gives.bind {P : α → Prop} {Q : β → Prop} (ha : Gives P a) (hf : ∀ v, P v → Gives Q (f v)) :
    Gives Q (a >>= f) := by
  intro s w u h
  obtain ⟨v, t, hv, hw⟩ := of_bind h
  exact hf v (ha s v t hv) t w u hw

lemma gives_bind {Q : β → Prop} (a : Act σ α) (hf : ∀ v, Gives Q (f v)) : Gives Q (a >>= f) :=
  Gives.bind (fun _ _ _ _ => trivial) fun v _ => hf v

lemma Gives.ite {P : α → Prop} (ha : Gives P a) (hb : Gives P b) :
    Gives P (if c then a else b) := by
  split_ifs
  · exact ha
  · exact hb

lemma gives_when {P : α → Prop} {a : Act σ Unit} {f : Unit → Act σ α} (hf : Gives P (f ())) :
    Gives P (if c then a >>= f else f ()) := .ite (gives_bind a fun _ => hf) hf

/-- What an action does to the state, and what it gives. -/
def Hands (R : σ → σ → Prop) (P : α → Prop) (a : Act σ α) : Prop := Leads R a ∧ Gives P a

section Hands

variable {P : α → Prop} {Q : β → Prop}

protected lemma Hands.pure (hv : P v) : Hands R P (pure v : Act σ α) := ⟨.pure, .pure hv⟩

lemma Leads.hands (ha : Leads R a) (hf : ∀ v, Hands R Q (f v)) : Hands R Q (a >>= f) :=
  ⟨ha.bind fun v => (hf v).1, gives_bind a fun v => (hf v).2⟩

lemma Hands.ite (ha : Hands R P a) (hb : Hands R P b) : Hands R P (if c then a else b) :=
  ⟨ha.1.ite hb.1, ha.2.ite hb.2⟩

end Hands

/-! ### Loops -/

protected lemma Leads.forM {f : α → Act σ Unit} (h : ∀ a ∈ as, Leads R (f a)) :
    Leads R (as.forM f) := by
  induction as with
  | nil => exact .pure
  | cons a as ih =>
    obtain ⟨ha, has⟩ := forall_mem_cons.mp h
    exact ha.bind fun _ => ih has

protected lemma Leads.foldlM_of {f : β → α → Act σ β} {P : β → Prop}
    (hP : ∀ b, P b → ∀ a ∈ as, ∀ s c t, f b a s = (.ok c, t) → P c)
    (h : ∀ b, P b → ∀ a ∈ as, Leads R (f b a)) {b : β} (hb : P b) : Leads R (as.foldlM f b) := by
  induction as generalizing b with
  | nil => exact .pure
  | cons a as ih =>
    rw [foldlM_cons]
    refine (h b hb a mem_cons_self).bind_of (hP b hb a mem_cons_self) fun c hc => ?_
    refine ih (fun b hb a ha => ?_) (fun b hb a ha => ?_) hc
    · exact hP b hb a (mem_cons_of_mem _ ha)
    · exact h b hb a (mem_cons_of_mem _ ha)

protected lemma Leads.foldlM {f : β → α → Act σ β} (h : ∀ b, ∀ a ∈ as, Leads R (f b a)) (b : β) :
    Leads R (as.foldlM f b) :=
  .foldlM_of (fun _ _ _ _ _ _ _ _ => trivial) (fun b _ => h b) trivial

protected lemma Leads.forStable {size : σ → Nat} {f : α → Act σ Unit}
    (h : ∀ a ∈ as, Leads R (f a)) :
    Leads R (forStable size f as) := by
  refine Leads.get.bind fun s => .forM fun a ha => (h a ha).bind fun _ => ?_
  exact Leads.get.bind fun t => .or_pure .throw

protected lemma Leads.mapM (h : ∀ a ∈ as, Leads R (f a)) : Leads R (as.mapM f) := by
  induction as with
  | nil =>
    rw [mapM_nil]
    exact .pure
  | cons a as ih =>
    obtain ⟨ha, has⟩ := forall_mem_cons.mp h
    rw [mapM_cons]
    exact ha.bind fun b => (ih has).bind_pure

protected lemma Leads.anyM (h : ∀ a, Leads R (p a)) : Leads R (as.anyM p) := by
  induction as with
  | nil => exact .pure
  | cons a as ih =>
    refine (h a).bind fun b => ?_
    cases b with
    | true => exact .pure
    | false => exact ih

protected lemma Leads.filterAuxM (h : ∀ a, Leads R (p a)) (acc : List α) :
    Leads R (as.filterAuxM p acc) := by
  induction as generalizing acc with
  | nil => exact .pure
  | cons a as ih => exact (h a).bind fun b => ih _

protected lemma Leads.filterM (h : ∀ a, Leads R (p a)) : Leads R (as.filterM p) :=
  (Leads.filterAuxM h []).bind_pure

/-! ### Actions that end well -/

/-- The action takes a state by steps of `R` to the one it leaves, if it ends well. -/
def Yields (R : σ → σ → Prop) (a : Act σ α) : Prop := ∀ s v t, a s = (.ok v, t) → ReflTransGen R s t

lemma Leads.yields (h : Leads R a) : Yields R a := by
  intro s v t hrun
  have hs := h s
  rwa [hrun] at hs

lemma Yields.bind_of {P : α → Prop} (ha : Yields R a) (hP : ∀ s v t, a s = (.ok v, t) → P v)
    (hf : ∀ v, P v → Yields R (f v)) : Yields R (a >>= f) := by
  intro s w u h
  obtain ⟨v, t, hv, hw⟩ := of_bind h
  exact (ha s v t hv).trans (hf v (hP s v t hv) t w u hw)

lemma Yields.bind (ha : Yields R a) (hf : ∀ v, Yields R (f v)) : Yields R (a >>= f) :=
  ha.bind_of (fun _ _ _ _ => trivial) fun v _ => hf v

lemma Yields.ite (ha : Yields R a) (hb : Yields R b) : Yields R (if c then a else b) := by
  split_ifs
  · exact ha
  · exact hb

/-! ### From states with a property -/

/-- No step of `R` takes the property away. -/
def Stable (P : σ → Prop) (R : σ → σ → Prop) : Prop := ∀ s t, P s → R s t → P t

lemma Stable.steps (hP : Stable P R) (hs : P s) (h : ReflTransGen R s t) : P t := by
  induction h with
  | refl => exact hs
  | tail _ hlast ih => exact hP _ _ ih hlast

lemma Yields.keeps (h : Yields (fun s t => P s → P t) a) (hrun : a s = (.ok v, t))
    (hs : P s) : P t :=
  Stable.steps (fun _ _ hs hst => hst hs) hs (h s v t hrun)

/-- From a state with `P` the action takes steps of `R`, whether it ends well or not. -/
def LeadsFrom (P : σ → Prop) (R : σ → σ → Prop) (a : Act σ α) : Prop :=
  ∀ s, P s → ReflTransGen R s (a s).2

lemma LeadsFrom.steps (h : LeadsFrom P R a) {r : Except Fault α} (hs : P s) (hrun : a s = (r, t)) :
    ReflTransGen R s t := by
  have hst := h s hs
  rwa [hrun] at hst

lemma LeadsFrom.bind (hP : Stable P R) (ha : LeadsFrom P R a) (hf : ∀ v, LeadsFrom P R (f v)) :
    LeadsFrom P R (a >>= f) := by
  intro s hs
  have h := ha s hs
  rw [run_bind]
  rcases hr : a s with ⟨_ | v, s'⟩
  · rw [hr] at h
    exact h
  · rw [hr] at h
    exact h.trans (hf v s' (hP.steps hs h))

lemma leadsFrom_get_bind {f : σ → Act σ α} (h : ∀ s, P s → ReflTransGen R s (f s s).2) :
    LeadsFrom P R (get >>= f) := h

lemma leadsFrom_forM (hP : Stable P R) {f : α → Act σ Unit} (h : ∀ a ∈ as, LeadsFrom P R (f a)) :
    LeadsFrom P R (as.forM f) := by
  induction as with
  | nil => exact fun s _ => Leads.pure s
  | cons a as ih =>
    obtain ⟨ha, has⟩ := forall_mem_cons.mp h
    exact ha.bind hP fun _ => ih has

/-- What every item brings about and no step takes away holds for all items at the end of a loop. -/
lemma forM_all (hP : Stable P R) (hQ : ∀ a, Stable (Q a) R) {f : α → Act σ Unit}
    (h : ∀ a ∈ as, LeadsFrom P R (f a))
    (hbring : ∀ a ∈ as, ∀ s t, P s → f a s = (.ok (), t) → Q a t) {v : Unit} (hs : P s)
    (hrun : as.forM f s = (.ok v, t)) : ∀ a ∈ as, Q a t := by
  induction as generalizing s with
  | nil => exact nofun
  | cons a as ih =>
    obtain ⟨ha, has⟩ := forall_mem_cons.mp h
    obtain ⟨hba, hbas⟩ := forall_mem_cons.mp hbring
    obtain ⟨_, s', hfirst, hrest⟩ := of_bind hrun
    have hs' := hP.steps hs (ha.steps hs hfirst)
    refine forall_mem_cons.mpr ⟨?_, ih has hbas hs' hrest⟩
    exact (hQ a).steps (hba s s' hs hfirst) ((leadsFrom_forM hP has).steps hs' hrest)

/-- A loop that ends well: each step keeps `P` and brings about what no step takes away. -/
lemma foldlM_all (hrefl : ∀ s, R s s) (htrans : ∀ s t u, R s t → R t u → R s u)
    (hQ : ∀ a, Stable (Q a) R) {f : β → α → Act σ β} {b c : β}
    (h : ∀ b, ∀ a ∈ as, ∀ s c t, P s → f b a s = (.ok c, t) → P t ∧ R s t ∧ Q a t) (hs : P s)
    (hrun : as.foldlM f b s = (.ok c, t)) : P t ∧ R s t ∧ ∀ a ∈ as, Q a t := by
  induction as generalizing s b with
  | nil =>
    cases hrun
    exact ⟨hs, hrefl _, nofun⟩
  | cons a as ih =>
    rw [foldlM_cons] at hrun
    obtain ⟨d, u, hfirst, hrest⟩ := of_bind hrun
    obtain ⟨hu, hsu, ha⟩ := h b a mem_cons_self s d u hs hfirst
    obtain ⟨ht, hut, has⟩ := ih (fun b x hx => h b x (mem_cons_of_mem a hx)) hu hrest
    exact ⟨ht, htrans s u t hsu hut, forall_mem_cons.mpr ⟨hQ a u t ha hut, has⟩⟩

lemma forM_eq_foldlM (f : α → Act σ Unit) (as : List α) :
    as.forM f = as.foldlM (fun _ a => f a) () := by
  induction as with
  | nil => rfl
  | cons a as ih => exact congrArg (f a >>= fun _ => ·) ih

lemma foldlM_keeps {f : β → α → Act σ β} {b c : β}
    (h : ∀ b, ∀ a ∈ as, ∀ s c t, P s → f b a s = (.ok c, t) → P t) (hs : P s)
    (hrun : as.foldlM f b s = (.ok c, t)) : P t :=
  (foldlM_all (fun _ => trivial) (fun _ _ _ _ _ => trivial) (fun _ _ _ _ _ => trivial)
    (fun b a ha s c t hs hrun => ⟨h b a ha s c t hs hrun, trivial, trivial⟩) hs hrun).1

lemma forM_keeps {f : α → Act σ Unit} {v : Unit}
    (h : ∀ a ∈ as, ∀ s t, P s → f a s = (.ok (), t) → P t) (hs : P s)
    (hrun : as.forM f s = (.ok v, t)) : P t := by
  rw [forM_eq_foldlM] at hrun
  exact foldlM_keeps (fun _ a ha s _ t hs hrun => h a ha s t hs hrun) hs hrun

/-! ### Two actions that do the same -/

/-- A run ends well with `J`, or fails with `E`. -/
def Ends (E J : σ → Prop) : Except Fault α × σ → Prop
  | (.ok _, t) => J t
  | (.error _, t) => E t

/-- From a state with `I` the two actions do the same. They end well with `J`, or fail with `E`. -/
def Alike (E I J : σ → Prop) (a b : Act σ α) : Prop := ∀ s, I s → a s = b s ∧ Ends E J (a s)

section Alike

variable {E I J K : σ → Prop}

lemma Alike.keeps (h : Alike E I J a b) (hs : I s) (hrun : a s = (.ok v, t)) : J t := by
  have hend := (h s hs).2
  rwa [hrun] at hend

protected lemma Alike.pure (v : α) : Alike E I I (pure v : Act σ α) (pure v) :=
  fun _ hs => ⟨rfl, hs⟩

protected lemma Alike.throw (hE : ∀ s, I s → E s) (e : Fault) :
    Alike E I J (throw e : Act σ α) (throw e) :=
  fun s hs => ⟨rfl, hE s hs⟩

lemma Alike.bind_of {P : α → Prop} (ha : Alike E I J a b)
    (hP : ∀ s v t, I s → a s = (.ok v, t) → P v)
    (hf : ∀ v, P v → Alike E J K (f v) (g v)) : Alike E I K (a >>= f) (b >>= g) := by
  intro s hs
  obtain ⟨heq, hend⟩ := ha s hs
  rw [run_bind, run_bind, ← heq]
  rcases hrun : a s with ⟨e | v, t⟩
  · rw [hrun] at hend
    exact ⟨rfl, hend⟩
  · rw [hrun] at hend
    exact hf v (hP s v t hs hrun) t hend

lemma Alike.bind (ha : Alike E I J a b) (hf : ∀ v, Alike E J K (f v) (g v)) :
    Alike E I K (a >>= f) (b >>= g) := ha.bind_of (fun _ _ _ _ _ => trivial) fun v _ => hf v

lemma Alike.ite (h : Alike E I J a b) (h' : Alike E I J a' b') :
    Alike E I J (if c then a else a') (if c then b else b') := by
  split_ifs
  · exact h
  · exact h'

lemma Alike.when {a b : Act σ Unit} {f g : Unit → Act σ α} (h : Alike E I I a b)
    (hf : Alike E I J (f ()) (g ())) :
    Alike E I J (if c then a >>= f else f ()) (if c then b >>= g else g ()) :=
  (h.bind fun _ => hf).ite hf

lemma Alike.ite_bind (h : Alike E I J a b) (h' : Alike E I J a' b')
    (hf : ∀ v, Alike E J K (f v) (g v)) :
    Alike E I K (if c then a >>= f else a' >>= f) (if c then b >>= g else b' >>= g) :=
  (h.bind hf).ite (h'.bind hf)

protected lemma Alike.look {look : σ → α} (ha : ∀ s, a s = (.ok (look s), s))
    (h : ∀ v, Alike E (fun s => I s ∧ look s = v) J (f v) (g v)) :
    Alike E I J (a >>= f) (a >>= g) := by
  intro s hs
  rw [run_bind, run_bind, ha s]
  exact h (look s) s ⟨hs, rfl⟩

lemma Alike.mono {I' : σ → Prop} (h : Alike E I J a b) (hI : ∀ s, I' s → I s) : Alike E I' J a b :=
  fun s hs => h s (hI s hs)

lemma Alike.post (h : Alike E I J a b) (hJ : ∀ s, J s → K s) : Alike E I K a b := by
  intro s hs
  obtain ⟨hsame, hend⟩ := h s hs
  refine ⟨hsame, ?_⟩
  rcases hrun : a s with ⟨e | v, t⟩
  · rwa [hrun] at hend
  · rw [hrun] at hend
    exact hJ t hend

protected lemma Alike.of_leads (ha : Leads R a) (hI : Stable I R) (hE : ∀ s, I s → E s) :
    Alike E I I a a := by
  intro s hs
  have ht := hI.steps hs (ha s)
  refine ⟨rfl, ?_⟩
  rcases hrun : a s with ⟨e | v, t⟩
  · rw [hrun] at ht
    exact hE t ht
  · rw [hrun] at ht
    exact ht

protected lemma Alike.of_yields (ha : Yields (fun s t => I s → I t) a) : Alike Any I I a a := by
  intro s hs
  refine ⟨rfl, ?_⟩
  rcases hrun : a s with ⟨e | v, t⟩
  · trivial
  · exact ha.keeps hrun hs

protected lemma Alike.forM {f g : α → Act σ Unit} (h : ∀ a ∈ as, Alike E I I (f a) (g a)) :
    Alike E I I (as.forM f) (as.forM g) := by
  induction as with
  | nil => exact .pure ()
  | cons a as ih =>
    obtain ⟨ha, has⟩ := forall_mem_cons.mp h
    exact ha.bind fun _ => ih has

protected lemma Alike.foldlM_of {f g : β → α → Act σ β} {P : β → Prop}
    (h : ∀ b, P b → ∀ a ∈ as, Alike E I I (f b a) (g b a) ∧ Gives P (f b a)) {b : β} (hb : P b) :
    Alike E I I (as.foldlM f b) (as.foldlM g b) ∧ Gives P (as.foldlM f b) := by
  induction as generalizing b with
  | nil => exact ⟨.pure b, .pure hb⟩
  | cons a as ih =>
    obtain ⟨ha, hgives⟩ := h b hb a mem_cons_self
    have hrest {c : β} (hc : P c) := ih (fun b hb x hx => h b hb x (mem_cons_of_mem _ hx)) hc
    rw [foldlM_cons, foldlM_cons]
    exact ⟨ha.bind_of (fun s v t _ => hgives s v t) fun c hc => (hrest hc).1,
      hgives.bind fun c hc => (hrest hc).2⟩

protected lemma Alike.foldlM {f g : β → α → Act σ β} (h : ∀ b, ∀ a ∈ as,
    Alike E I I (f b a) (g b a)) {b : β} :
    Alike E I I (as.foldlM f b) (as.foldlM g b) :=
  (Alike.foldlM_of (fun b _ a ha => ⟨h b a ha, fun _ _ _ _ => trivial⟩) trivial).1

protected lemma Alike.mapM (h : ∀ a ∈ as, Alike E I I (f a) (g a)) :
    Alike E I I (as.mapM f) (as.mapM g) := by
  induction as with
  | nil =>
    rw [mapM_nil, mapM_nil]
    exact .pure []
  | cons a as ih =>
    obtain ⟨ha, has⟩ := forall_mem_cons.mp h
    rw [mapM_cons, mapM_cons]
    exact ha.bind fun b => (ih has).bind fun _ => .pure _

/-! ### What an action upholds -/

/-- From a state with `I` the action ends well with `J`, or fails with `E`. -/
def Upholds (E I J : σ → Prop) (a : Act σ α) : Prop := ∀ s, I s → Ends E J (a s)

lemma Alike.upholds (h : Alike E I J a b) : Upholds E I J a := fun s hs => (h s hs).2

lemma Upholds.alike (h : Upholds E I J a) : Alike E I J a a := fun s hs => ⟨rfl, h s hs⟩

protected lemma Upholds.pure : Upholds E I I (pure v : Act σ α) := (Alike.pure v).upholds

lemma Upholds.bind (ha : Upholds E I J a) (hf : ∀ v, Upholds E J K (f v)) :
    Upholds E I K (a >>= f) :=
  (ha.alike.bind fun v => (hf v).alike).upholds

lemma Upholds.ite (h : Upholds E I J a) (h' : Upholds E I J b) :
    Upholds E I J (if c then a else b) := (h.alike.ite h'.alike).upholds

lemma Upholds.when {a : Act σ Unit} {f : Unit → Act σ α} (h : Upholds E I I a)
    (hf : Upholds E I J (f ())) : Upholds E I J (if c then a >>= f else f ()) :=
  (h.bind fun _ => hf).ite hf

lemma Upholds.ite_bind (h : Upholds E I J a) (h' : Upholds E I J b)
    (hf : ∀ v, Upholds E J K (f v)) : Upholds E I K (if c then a >>= f else b >>= f) :=
  (h.bind hf).ite (h'.bind hf)

protected lemma Upholds.forM {f : α → Act σ Unit} (h : ∀ a ∈ as, Upholds E I I (f a)) :
    Upholds E I I (as.forM f) := (Alike.forM fun a ha => (h a ha).alike).upholds

protected lemma Upholds.foldlM {f : β → α → Act σ β} (h : ∀ b, ∀ a ∈ as, Upholds E I I (f b a))
    {b : β} :
    Upholds E I I (as.foldlM f b) := (Alike.foldlM (fun b a ha => (h b a ha).alike)).upholds

end Alike

/-! ### Two runs side by side -/

/-- From states that correspond the action gives the same, and leaves states that correspond. -/
def Abreast (E : σ → σ → Prop) (a : Act σ α) : Prop :=
  ∀ s s', E s s' → (a s).1 = (a s').1 ∧ E (a s).2 (a s').2

section Abreast

variable {E : σ → σ → Prop}

protected lemma Abreast.pure : Abreast E (pure v : Act σ α) := fun _ _ h => ⟨rfl, h⟩

protected lemma Abreast.throw : Abreast E (throw e : Act σ α) := fun _ _ h => ⟨rfl, h⟩

protected lemma Abreast.modify {f : σ → σ} (h : ∀ s s', E s s' → E (f s) (f s')) :
    Abreast E (modify f : Act σ Unit) := fun s s' hs => ⟨rfl, h s s' hs⟩

protected lemma Abreast.need {v : Option α} : Abreast E (need e v) := by
  cases v with
  | none => exact .throw
  | some v => exact .pure

lemma Abreast.bind_of {P : α → Prop} (ha : Abreast E a) (hP : ∀ s v t, a s = (.ok v, t) → P v)
    (hf : ∀ v, P v → Abreast E (f v)) : Abreast E (a >>= f) := by
  intro s s' hs
  obtain ⟨hsame, hstates⟩ := ha s s' hs
  rw [run_bind, run_bind]
  rcases hrun : a s with ⟨e | v, t⟩ <;> rcases hrun' : a s' with ⟨e' | v', t'⟩ <;>
    rw [hrun, hrun'] at hsame hstates <;> cases hsame
  · exact ⟨rfl, hstates⟩
  · exact hf v (hP s v t hrun) t t' hstates

lemma Abreast.bind (ha : Abreast E a) (hf : ∀ v, Abreast E (f v)) : Abreast E (a >>= f) :=
  ha.bind_of (fun _ _ _ _ => trivial) fun v _ => hf v

lemma Abreast.ite (ha : Abreast E a) (hb : Abreast E b) : Abreast E (if c then a else b) := by
  split_ifs
  · exact ha
  · exact hb

protected lemma Abreast.forM {f : α → Act σ Unit} (h : ∀ a ∈ as, Abreast E (f a)) :
    Abreast E (as.forM f) := by
  induction as with
  | nil => exact .pure
  | cons a as ih =>
    obtain ⟨ha, has⟩ := forall_mem_cons.mp h
    exact ha.bind fun _ => ih has

end Abreast

end Act

end SinkTrace
