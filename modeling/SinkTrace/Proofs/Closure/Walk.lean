import SinkTrace.Proofs.Closure.Search

/-!
# One recursion for both kinds of pointers

The closures of the names and those of the taints are computed by the same recursion. `visit` is
that recursion for both, and `visitNames` and `visitTaints` are its two cases. A visit enters only
what was not visited before, so a search is never nested deeper than the number of definitions that
are left to visit. With that much fuel, a visit does what `Search` says.
-/

namespace SinkTrace

open Definitions Act

variable {ns : String}

namespace Definitions

open Pointer

variable {k : Pointer} {d : Definition} {p : Pass}

def Pass.unvisited (p : Pass) : Nat :=
  (p.defs.current.keys.filter fun n => !p.visited.contains n).length

lemma unvisited_le_size (p : Pass) : p.unvisited ≤ p.defs.current.size := by
  rw [← Table.length_keys]
  exact List.length_filter_le _ _

lemma unvisited_le_of_frame {q : Pass} (h : k.Frame p q) : q.unvisited ≤ p.unvisited := by
  unfold Pass.unvisited
  rw [h.keys]
  refine (List.monotone_filter_right _ fun n hn => ?_).length_le
  simp only [Bool.not_eq_true', List.contains_eq_mem, decide_eq_false_iff_not] at hn ⊢
  exact fun hp => hn (h.visited n hp)

lemma unvisited_enter (hd : p.defs.get? ns = some d) (hns : ns ∉ p.visited) (s : Names) :
    (k.enter p ns s).unvisited < p.unvisited := by
  have hkey : ns ∈ p.defs.current.keys := Table.mem_keys_iff.mpr (contains_of_get? hd)
  have hsub : ((k.enter p ns s).defs.current.keys.filter
      fun n => !(k.enter p ns s).visited.contains n) =
        (p.defs.current.keys.filter fun n => !p.visited.contains n).filter (· ≠ ns) := by
    rw [keys_enter, visited_enter, List.filter_filter]
    apply List.filter_congr
    intro n _
    simp [List.mem_insertEnd_iff]
  unfold Pass.unvisited
  rw [hsub]
  refine List.length_filter_lt_length_iff_exists.mpr ⟨ns, ?_, by simp⟩
  simpa [List.mem_filter] using ⟨hkey, hns⟩

end Definitions

namespace Pointer

variable {k : Pointer} {d : Definition} {u : Nat} {p : Pass}

instance (k : Pointer) (s : PointSet) : Decidable (k.Readable s) := by
  cases k
  · exact isTrue trivial
  · exact inferInstanceAs (Decidable (s.scalars = [] ∨ ∃ m ∈ s.names, isSinkMark m = true))

def follow (k : Pointer) (visit : String → TaintPass Names) (later : Bool)
    (self : Option String) : Names → Names → TaintPass Names
  | [], acc => return acc
  | n :: ns, acc => do
    if k.isMark n then return [n]
    else if !(← get).defs.contains n || (later && (acc.contains n || self == some n)) then
      follow k visit later self ns acc
    else
      let items ← visit n
      follow k visit later self ns (acc.union (if items.isEmpty then [n] else items))

/-- What was found is only taken from a set that could be gone through. -/
def read (k : Pointer) (s : PointSet) (found : Names) : TaintPass Names :=
  if k.Readable s then pure found else throw .absent

/-- Enters a definition: the fresh part comes first, then what is left of its old closure. -/
def one (k : Pointer) (visit : String → TaintPass Names) (d : Definition) : TaintPass Names := do
  let p ← get
  modify (k.enter · d.ns (k.start d))
  let found ← k.follow visit (!p.affected.isEmpty) none (k.fresh p d).names (k.start d)
  let found ← k.read (k.fresh p d) found
  modify fun p₁ => if p.affected.isEmpty then p₁ else k.clear p₁ d.ns
  let result ← k.follow visit (!p.affected.isEmpty) (k.self d.ns) (k.rest p d) found
  modify (k.store · d.ns result)
  return result

/-- Whether a known closure is taken as it is. -/
def keeps : Pointer → Pass → String → Definition → Bool
  | names, p, ns, d => !d.change.hasNames || p.visited.contains ns
  | taints, _, _, d => !d.change.hasTaints

def visit (k : Pointer) : Nat → String → TaintPass Names
  | 0, ns => return k.closure (← get).defs ns
  | fuel + 1, ns => do
    let p ← get
    match p.defs.get? ns with
    | none => return []
    | some d =>
      match (k.cache p.defs).get? ns with
      | some known => if k.keeps p ns d then return known else k.one (k.visit fuel) d
      | none => k.one (k.visit fuel) d

/-! ### Names -/

def total {α : Type} (m : StateM Pass α) : TaintPass α := fun p => (.ok (m p).1, (m p).2)

lemma total_bind {α β : Type} (m : StateM Pass α) (f : α → StateM Pass β) :
    total (m >>= f) = total m >>= fun v => total (f v) := by
  funext p
  rw [run_bind]
  rfl

section Names

variable (v : String → StateM Pass Names)

lemma follow_names (later : Bool) (ns acc : Names) :
    names.follow (fun n => total (v n)) later none ns acc =
    total (unionClosures v later ns acc) := by
  induction ns generalizing acc with
  | nil => rfl
  | cons n ns ih =>
    rw [unionClosures, List.foldlM_cons, total_bind, total_bind, bind_assoc, follow,
      if_neg (by exact Bool.false_ne_true)]
    refine congrArg (get >>= ·) (funext fun p => ?_)
    rw [show (none == some n) = false from rfl, Bool.or_false]
    split_ifs
    · exact ih acc
    · rw [total_bind, bind_assoc]
      exact congrArg (total (v n) >>= ·) (funext fun _ => ih _)

lemma one_names (d : Definition) : names.one (fun n => total (v n)) d = total (closeOne v d) := by
  funext p
  simp only [one, run_bind, run_get, run_modify, self, follow_names,
    show ∀ s found, names.read s found = pure found from fun _ _ => rfl, run_pure]
  simp only [total, closeOne, bind, StateT.bind, get, getThe, MonadStateOf.get, StateT.get, modify,
    modifyGet, MonadStateOf.modifyGet, StateT.modifyGet, pure]
  cases ha : p.affected.isEmpty with
  | true =>
    rw [List.isEmpty_iff] at ha
    rw [rest_of_first ha, fresh_of_first ha]
    rfl
  | false =>
    rw [List.isEmpty_eq_false_iff] at ha
    rw [rest_of_later ha, fresh_of_later ha]
    rfl

end Names

lemma visit_names (fuel : Nat) (ns : String) :
    names.visit fuel ns = total (visitNames fuel ns) := by
  induction fuel generalizing ns with
  | zero => rfl
  | succ fuel ih =>
    have hone (d : Definition) : names.one (names.visit fuel) d =
        total (closeOne (visitNames fuel) d) := by
      rw [← one_names, ← funext ih]
    rw [visit, visitNames, total_bind]
    refine congrArg (get >>= ·) (funext fun p => ?_)
    cases p.defs.get? ns with
    | none => rfl
    | some d =>
      dsimp only [cache]
      cases p.defs.closure.get? ns with
      | none => exact hone d
      | some known =>
        change (if (!d.change.hasNames || p.visited.contains ns) then _ else _) = _
        split_ifs
        · rfl
        · exact hone d

/-! ### Taints -/

section Taints

variable (v : String → TaintPass Names)

lemma unionTaints_eq (later : Bool) (self : Option String) (ns acc : Names) :
    unionTaints v later self ns acc
      = (fun found => (found, ns.any isSinkMark)) <$> taints.follow v later self ns acc := by
  induction ns generalizing acc with
  | nil => rfl
  | cons n ns ih =>
    rw [unionTaints, follow, List.any_cons, show taints.isMark n = isSinkMark n from rfl]
    cases hn : isSinkMark n with
    | true => rfl
    | false =>
      rw [if_neg Bool.false_ne_true, if_neg Bool.false_ne_true, map_bind, Bool.false_or]
      refine congrArg (get >>= ·) (funext fun p => ?_)
      split_ifs
      · exact ih acc
      · rw [map_bind]
        exact congrArg (v n >>= ·) (funext fun _ => ih _)

lemma checkTaints_eq (s : PointSet) (found : Names) :
    checkTaints s (found, s.names.any isSinkMark) = taints.read s found := by
  have hr : taints.Readable s ↔ ¬ (!s.names.any isSinkMark && !s.scalars.isEmpty) := by
    simp [Readable, or_iff_not_imp_right]
  simp only [checkTaints, read, hr, ite_not]

lemma one_taints : taints.one v d = taintOne v d := by
  funext p
  simp only [one, taintOne, unionTaints_eq, map_eq_pure_bind, bind_assoc, pure_bind, checkTaints_eq,
    run_bind, run_get, run_modify]
  cases ha : p.affected.isEmpty with
  | true =>
    rw [List.isEmpty_iff] at ha
    rw [rest_of_first ha, fresh_of_first ha]
    simp only [Bool.not_true, Bool.false_eq_true, if_false, if_true, follow, run_bind,
      run_pure, run_modify]
    rfl
  | false =>
    rw [List.isEmpty_eq_false_iff] at ha
    rw [rest_of_later ha, fresh_of_later ha]
    simp only [Bool.not_false, Bool.false_eq_true, if_false, if_true, run_bind, run_get, run_modify]
    rfl

end Taints

lemma visit_taints (fuel : Nat) (ns : String) : taints.visit fuel ns = visitTaints fuel ns := by
  induction fuel generalizing ns with
  | zero => rfl
  | succ fuel ih =>
    rw [visit, visitTaints, funext ih]
    refine congrArg (get >>= ·) (funext fun p => ?_)
    cases p.defs.get? ns with
    | none => rfl
    | some d =>
      dsimp only [cache]
      cases p.defs.taints.get? ns with
      | none => exact one_taints _
      | some known =>
        change (if (!d.change.hasTaints) then _ else _) = _
        cases d.change.hasTaints with
        | true => exact one_taints _
        | false => rfl

/-! ### Searches -/

section Searches

variable {v : String → TaintPass Names}

lemma search_follow
    (hvisit : ∀ n p, k.Sane p → p.unvisited < u →
      Search k p (.visit n) (v n p).1.toOption (v n p).2)
    {later : Bool} (self : Option String) (ns acc : Names) (hp : k.Sane p) (hu : p.unvisited < u)
    (hl : later = !p.affected.isEmpty) :
    Search k p (.follow self ns acc) (k.follow v later self ns acc p).1.toOption
      (k.follow v later self ns acc p).2 := by
  induction ns generalizing acc p with
  | nil => exact Search.nil
  | cons n ns ih =>
    rw [follow, run_ite, run_bind, run_get]
    dsimp only
    rw [run_ite]
    split_ifs with hm hskip
    · exact Search.mark hm
    · refine Search.skip (Bool.eq_false_iff.mpr hm) ?_ (ih acc hp hu hl)
      simpa [hl] using hskip
    · have hm' := Bool.eq_false_iff.mpr hm
      simp only [Bool.or_eq_true, Bool.not_eq_true', Bool.and_eq_true, List.contains_eq_mem,
        decide_eq_true_eq, hl, List.isEmpty_eq_false_iff, beq_iff_eq, not_or, Bool.not_eq_false,
        not_and] at hskip
      have hmore : p.affected = [] ∨ n ∉ acc ∧ self ≠ some n := or_iff_not_imp_left.mpr hskip.2
      have hv := hvisit n p hp hu
      obtain ⟨hp₁, hfr⟩ := hv.sane_frame hp
      rw [run_bind]
      rcases hr : v n p with ⟨e | items, p₁⟩
      · rw [hr] at hv
        exact Search.stop hm' hskip.1 hmore hv
      · rw [hr] at hv hp₁ hfr
        have hu₁ := Nat.lt_of_le_of_lt (unvisited_le_of_frame hfr) hu
        exact Search.step hm' hskip.1 hmore hv (ih _ hp₁ hu₁ (by rw [hfr.affected, hl]))

lemma search_one
    (hvisit : ∀ n p, k.Sane p → p.unvisited < u →
      Search k p (.visit n) (v n p).1.toOption (v n p).2)
    (hp : k.Sane p) (hu : p.unvisited < u + 1) (hd : p.defs.get? ns = some d)
    (ho : (k.cache p.defs).get? ns = none ∨ k.changed d) :
    Search k p (.visit ns) (k.one v d p).1.toOption (k.one v d p).2 := by
  obtain rfl : d.ns = ns := hp.keyed ns d hd
  have hns := hp.not_visited hd ho
  have hu₀ := Nat.lt_of_lt_of_le (unvisited_enter (k := k) hd hns (k.start d))
    (Nat.le_of_lt_succ hu)
  have hf := search_follow hvisit none (k.fresh p d).names (k.start d)
    (sane_enter hp hns) hu₀ (congrArg (!List.isEmpty ·) (affected_enter p d.ns _).symm)
  simp only [one, run_bind, run_get, run_modify, read, run_ite]
  rcases hrun : k.follow v (!p.affected.isEmpty) none (k.fresh p d).names (k.start d)
    (k.enter p d.ns (k.start d)) with ⟨e | found, p₁⟩ <;> rw [hrun] at hf
  · exact Search.stopFresh hd ho hf (.inl rfl)
  have hop := hp.opening hd ho hf.sane_frame
  have haff : p₁.affected = p.affected := hop.frame.affected.trans (affected_enter p d.ns _)
  have hset : (if p.affected.isEmpty then p₁ else k.clear p₁ d.ns) = k.settle p₁ d.ns := by
    rw [settle, haff]
  dsimp only
  by_cases hr : k.Readable (k.fresh p d)
  · have hu₁ := Nat.lt_of_le_of_lt (unvisited_le_of_frame (hop.frame.trans hop.frame_settle)) hu₀
    have hs := search_follow hvisit (k.self d.ns) (k.rest p d) found hop.sane_settle hu₁
      (congrArg (!List.isEmpty ·) ((affected_settle ..).trans haff).symm)
    rw [if_pos hr, run_pure]
    dsimp only
    rw [hset]
    rcases hrest : k.follow v (!p.affected.isEmpty) (k.self d.ns) (k.rest p d) found
      (k.settle p₁ d.ns) with ⟨e | result, p₂⟩ <;> rw [hrest] at hs
    · exact Search.stopRest hd ho hf hs
    · exact Search.close hd ho hf hr hs
  · rw [if_neg hr]
    exact Search.stopFresh hd ho hf (.inr hr)

end Searches

lemma changed_eq_not_keeps (hp : k.Sane p) (hd : p.defs.get? ns = some d) :
    k.changed d = !k.keeps p ns d := by
  cases k with
  | names =>
    have hcalm : ns ∈ p.visited → d.change.hasNames = false := fun hv => hp.calm ns hv d hd
    rw [← List.contains_iff_mem] at hcalm
    cases hv : p.visited.contains ns with
    | true => simp only [keeps, changed, hcalm hv, Bool.not_false, Bool.true_or, Bool.not_true]
    | false => simp only [keeps, changed, hv, Bool.or_false, Bool.not_not]
  | taints => exact (Bool.not_not _).symm

/-- With fuel for every definition that is not visited yet, a visit is a search. -/
lemma search_visit {fuel : Nat} (ns : String) (hp : k.Sane p) (hu : p.unvisited < fuel) :
    Search k p (.visit ns) (k.visit fuel ns p).1.toOption (k.visit fuel ns p).2 := by
  induction fuel generalizing ns p with
  | zero => exact absurd hu (Nat.not_lt_zero _)
  | succ u ih =>
    have hone {d : Definition} (hd : p.defs.get? ns = some d) :=
      search_one (fun n q hq huq => ih n hq huq) hp hu hd
    rw [visit, run_bind, run_get]
    dsimp only
    cases hd : p.defs.get? ns with
    | none => exact Search.absent hd
    | some d =>
      dsimp only
      cases hk : (k.cache p.defs).get? ns with
      | none => exact hone hd (.inl hk)
      | some known =>
        have hchanged := changed_eq_not_keeps hp hd
        dsimp only
        rw [run_ite]
        split_ifs with hc
        · exact Search.known hd hk (by rw [hchanged, hc]; rfl)
        · exact hone hd (.inr (by rw [hchanged, Bool.eq_false_iff.mpr hc]; rfl))

end Pointer

end SinkTrace
