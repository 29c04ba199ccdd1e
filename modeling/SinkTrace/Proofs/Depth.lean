import Mathlib.Data.List.Nodup
import SinkTrace.Proofs.Act

/-!
# Actions that do not go too deep

A recursion that takes a bound for its depth fails with `tooDeep` where the bound is used up.
`Bounded` says that it does not come to that.
-/

namespace SinkTrace

open List

namespace Act

variable {σ α β : Type} {I : σ → Prop} {P : α → Prop} {Q : β → Prop} {v : α} {a b : Act σ α}
  {f : α → Act σ β} {as : List α} {e : Fault} {c : Prop} [Decidable c] {r : Except Fault α × σ}

/-- The run ends with `I` and gives what is `P`, or fails, but not for going too deep. -/
def EndsBounded (I : σ → Prop) (P : α → Prop) : Except Fault α × σ → Prop
  | (.ok v, t) => I t ∧ P v
  | (.error e, t) => I t ∧ e ≠ .tooDeep

/-- From a state with `I` the action does not go too deep. -/
def Bounded (I : σ → Prop) (P : α → Prop) (a : Act σ α) : Prop := ∀ s, I s → EndsBounded I P (a s)

abbrev BoundedOn (I : σ → Prop) (a : Act σ α) : Prop := Bounded I Any a

lemma EndsBounded.ne (h : EndsBounded I P r) : r.1 ≠ .error .tooDeep := by
  obtain ⟨e | v, t⟩ := r
  · exact fun he => h.2 (Except.error.inj he)
  · simp

lemma EndsBounded.mono {J : σ → Prop} (h : EndsBounded I P r) (hI : ∀ t, I t → J t) :
    EndsBounded J P r := by
  obtain ⟨e | v, t⟩ := r
  · exact ⟨hI t h.1, h.2⟩
  · exact ⟨hI t h.1, h.2⟩

lemma EndsBounded.kept (h : EndsBounded I P r) : I r.2 := by
  obtain ⟨e | v, t⟩ := r
  · exact h.1
  · exact h.1

protected lemma Bounded.pure (hv : P v) : Bounded I P (pure v) := fun _ hs => ⟨hs, hv⟩

lemma boundedOn_pure : BoundedOn I (pure v : Act σ α) := .pure trivial

protected lemma Bounded.throw (he : e ≠ .tooDeep := by simp) : Bounded I P (throw e) :=
  fun _ hs => ⟨hs, he⟩

lemma bounded_modify {f : σ → σ} (h : ∀ s, I s → I (f s)) : BoundedOn I (modify f : Act σ Unit) :=
  fun s hs => ⟨h s hs, trivial⟩

lemma Bounded.bind (ha : Bounded I P a) (hf : ∀ v, P v → Bounded I Q (f v)) :
    Bounded I Q (a >>= f) := by
  intro s hs
  have hend := ha s hs
  rw [run_bind]
  rcases hrun : a s with ⟨e | v, t⟩
  · rwa [hrun] at hend
  · rw [hrun] at hend
    exact hf v hend.2 t hend.1

lemma Bounded.next (ha : Bounded I P a) (hf : ∀ v, Bounded I Q (f v)) : Bounded I Q (a >>= f) :=
  ha.bind fun v _ => hf v

lemma Bounded.ite (h : Bounded I P a) (h' : Bounded I P b) : Bounded I P (if c then a else b) := by
  split_ifs
  · exact h
  · exact h'

lemma bounded_need {o : Option α} (ho : ∀ v, o = some v → P v) (he : e ≠ .tooDeep := by simp) :
    Bounded I P (need e o) := by
  cases o with
  | none => exact .throw he
  | some v => exact .pure (ho v rfl)

lemma bounded_lift {x : Except Fault α} (hx : x ≠ .error .tooDeep) :
    BoundedOn I (liftM x : Act σ α) := by
  cases x with
  | error e => exact .throw fun he => hx (he ▸ rfl)
  | ok v => exact boundedOn_pure

lemma bounded_foldlM {f : β → α → Act σ β} (h : ∀ b, ∀ a ∈ as, BoundedOn I (f b a)) {b : β} :
    BoundedOn I (as.foldlM f b) := by
  induction as generalizing b with
  | nil => exact boundedOn_pure
  | cons a as ih =>
    rw [List.foldlM_cons]
    exact (h b a List.mem_cons_self).next fun c => ih fun b x hx =>
      h b x (List.mem_cons_of_mem _ hx)

lemma bounded_forIn {f : α → PUnit → Act σ (ForInStep PUnit)}
    (h : ∀ a ∈ as, Bounded I (· = .yield ⟨⟩) (f a ⟨⟩)) : BoundedOn I (forIn as ⟨⟩ f) := by
  induction as with
  | nil => exact boundedOn_pure
  | cons a as ih =>
    obtain ⟨ha, has⟩ := List.forall_mem_cons.mp h
    rw [List.forIn_cons]
    refine ha.bind fun r hr => ?_
    subst hr
    exact ih has

end Act

/-! ### Names that are left -/

variable {all known known' : List String} {n : String}

/-- How many of the names are not known. -/
def unmet (all known : List String) : Nat := (all.filter (· ∉ known)).length

lemma unmet_lt (hall : n ∈ all) (hnot : n ∉ known) (h : n :: known ⊆ known') :
    unmet all known' < unmet all known := by
  have hsub : (all.filter (· ∉ known')).Sublist ((all.filter (· ∉ known)).filter (· ≠ n)) := by
    rw [filter_filter]
    refine monotone_filter_right all fun m hm => ?_
    have hm' : m ∉ n :: known := fun hmem => of_decide_eq_true hm (h hmem)
    simpa [not_or] using hm'
  refine Nat.lt_of_le_of_lt hsub.length_le ?_
  exact length_filter_lt_length_iff_exists.mpr ⟨n, by simp [hall, hnot], by simp⟩

end SinkTrace
