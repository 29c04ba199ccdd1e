import SinkTrace.Proofs.Closure.Turns
import SinkTrace.Proofs.Closure.Walk
import SinkTrace.Proofs.Definition.Runs

/-!
# A whole computation of the closures

`Closing` describes a computation for both kinds of pointers: what it begins with, that it goes on
turn by turn, and that all it has to do is settled if it ends well. The two computations are such
closings, so what holds after a run follows from what edits and closings keep.
-/

namespace SinkTrace

open Definitions Relation Act

namespace Definitions

/-- Every definition is at its own namespace. -/
def Keyed (ds : Definitions) : Prop := ∀ ns d, ds.get? ns = some d → d.ns = ns

end Definitions

namespace Pointer

variable {k : Pointer} {halts : Bool} {ok : Bool} {ds ds' : Definitions} {ns : Names} {p p₀ : Pass}
  {n : String} {e : Definition}

/-! ### The computation for both kinds -/

lemma adjustAt_of_none (h : ds.get? n = none) (f : Definition → Definition) :
    ds.adjustAt n f = ds := by
  have hn : ∀ e ∈ ds.current.entries, (e.1 == n) = false := by simpa [get?, Table.get?] using h
  have hmap : (ds.current.entries.map fun e => if e.1 == n then (e.1, f e.2) else e)
      = ds.current.entries :=
    (List.map_congr_left fun e he => by rw [hn e he]; rfl).trans (List.map_id _)
  rw [adjustAt, Table.modify, hmap]

def first (k : Pointer) (fuel : Nat) (ns : String) : TaintPass Unit := do
  modify fun p => { p with defs := p.defs.adjustAt ns fun d => { d with change := .nothing } }
  unless (k.cache (← get).defs).contains ns do
    let _ ← k.visit fuel ns

def later (k : Pointer) (fuel : Nat) (ns : String) : TaintPass Unit := do
  if !(← get).defs.contains ns then pure ()
  else if (← get).visited.contains ns then
    modify fun p => { p with defs := p.defs.adjustAt ns k.calm }
  else
    let _ ← k.visit fuel ns

def affectedBy : Pointer → Definitions → Names
  | names => affectedByNames
  | taints => affectedByTaints

def unnoted : Pointer → Definitions → Definitions
  | names, ds => { ds with changedNames := [] }
  | taints, ds => { ds with changedTaints := [] }

def mark : Pointer → Definition → Definition
  | names, d => { d with change := d.change.addNames }
  | taints, d => { d with change := .taints }

def refuses : Pointer → Definition → Bool
  | names, _ => false
  | taints, d => d.change.hasNames

def markOne (k : Pointer) (ns : String) : TaintPass Unit := do
  match (← get).defs.get? ns with
  | none => pure ()
  | some d =>
    if k.refuses d then throw .absent
    modify fun p => { p with defs := p.defs.adjustAt ns k.mark }

def compute (k : Pointer) : Act Definitions Unit := fun ds =>
  let fuel := ds.current.size + 1
  let (r, p) :=
    if (k.cache ds).isEmpty then (ds.current.keys.forM (k.first fuel)) { defs := ds }
    else
      let affected := k.affectedBy ds
      (do
        affected.forM k.markOne
        affected.forM (k.later fuel) : TaintPass Unit) { defs := k.unnoted ds, affected }
  (r, p.defs)

lemma compute_taints : taints.compute = closeTaints := by
  have hfirst (fuel : Nat) (ns : String) : taints.first fuel ns = firstTaints fuel ns := by
    rw [first, visit_taints]
    rfl
  have hlater (fuel : Nat) (ns : String) : taints.later fuel ns = laterTaints fuel ns := by
    rw [later, visit_taints]
    rfl
  funext ds
  rw [compute, closeTaints, funext (hfirst _), funext (hlater _)]
  rfl

lemma run_forM_foldl {f : String → TaintPass Unit} {g : Pass → String → Pass}
    (h : ∀ n p, f n p = (.ok (), g p n)) (ns : Names) (p : Pass) :
    ns.forM f p = (.ok (), ns.foldl g p) := by
  induction ns generalizing p with
  | nil => rfl
  | cons n ns ih =>
    rw [run_forM_cons, h]
    exact ih (g p n)

lemma compute_names (ds : Definitions) : names.compute ds = (.ok (), closeNames ds) := by
  have hfirst (fuel : Nat) (n : String) (p : Pass) :
      names.first fuel n p = (.ok (), firstNames fuel p n) := by
    simp only [first, visit_names, run_bind, run_modify, run_get, run_ite, firstNames, cache]
    split_ifs <;> rfl
  have hlater (fuel : Nat) (n : String) (p : Pass) :
      names.later fuel n p = (.ok (), laterNames fuel p n) := by
    simp only [later, visit_names, run_bind, run_get, run_ite, laterNames]
    split_ifs <;> rfl
  have hmark (n : String) (p : Pass) :
      names.markOne n p = (.ok (), { p with defs := markNames p.defs n }) := by
    rw [markOne, run_bind, run_get]
    dsimp only
    cases hd : p.defs.get? n with
    | none => rw [markNames, adjustAt_of_none hd]; rfl
    | some d => rfl
  unfold compute closeNames
  simp only [cache, run_bind, run_forM_foldl (hfirst _), run_forM_foldl hmark,
    run_forM_foldl (hlater _)]
  split_ifs
  · rfl
  · rw [List.foldl_hom (fun ds' => ({ defs := ds', affected := names.affectedBy ds } : Pass))
      (fun _ _ => rfl)]
    rfl

/-! ### Turns -/

lemma After.unvisited_lt {q : Pass} (h : k.After p q) : q.unvisited < p.defs.current.size + 1 :=
  Nat.lt_succ_of_le (h.size ▸ unvisited_le_size q)

lemma settled_reset {ns : String} (hc : (k.cache p.defs).contains ns) :
    k.Settled { p with defs := p.defs.adjustAt ns fun d => { d with change := .nothing } } ns := by
  intro e he
  rw [get?_adjustAt, if_pos rfl] at he
  obtain ⟨d, -, rfl⟩ := Option.map_eq_some_iff.mp he
  refine ⟨by cases k <;> rfl, ?_⟩
  obtain ⟨xs, hxs⟩ := Table.contains_iff.mp hc
  exact ⟨xs, by cases k <;> exact hxs⟩

lemma ended_visit {a : TaintPass Names} {ns : String} (hp : k.Sane p)
    (h : Search k p (.visit ns) (a p).1.toOption (a p).2) :
    k.Ended p [ns] ((do let _ ← a : TaintPass Unit) p) := by
  rw [run_bind]
  rcases hrun : a p with ⟨e | v, q⟩
  · rw [hrun] at h
    exact ⟨fun _ hr => .single (Turn.visit h fun _ => hr nofun), nofun,
      fun _ => ⟨p, q, ns, .refl, h⟩⟩
  · rw [hrun] at h
    exact ended_ok (fun _ => .single (Turn.visit h nofun)) (settled_of_search h hp)

lemma ended_first {ns : String} (ha : p₀.affected = []) (hp : k.Sane p) (h₀ : k.After p₀ p) :
    k.Ended p [ns] (k.first (p₀.defs.current.size + 1) ns p) := by
  have hreset : ∀ halts, k.Turn halts p _ := fun _ => Turn.reset ns (h₀.affected.trans ha)
  obtain ⟨hq, hafter⟩ := (hreset false).sane_after hp
  rw [first, run_bind, run_modify]
  dsimp only
  rw [run_bind, run_get]
  dsimp only
  rw [run_ite]
  split_ifs with hc
  · exact ended_ok (fun halts => .single (hreset halts)) (settled_reset (by cases k <;> exact hc))
  · exact (ended_visit hq (search_visit ns hq (h₀.trans hafter).unvisited_lt)).head
      fun halts => .single (hreset halts)

lemma ended_later {ns : String} (hp : k.Sane p) (h₀ : k.After p₀ p) :
    k.Ended p [ns] (k.later (p₀.defs.current.size + 1) ns p) := by
  rw [later, run_bind, run_get]
  dsimp only
  rw [run_ite]
  split_ifs with hd
  · refine ended_ok (fun _ => .refl) fun e he => ?_
    rw [Bool.not_eq_true', contains_of_get? he] at hd
    cases hd
  · rw [run_bind, run_get]
    dsimp only
    rw [run_ite]
    split_ifs with hv
    · have hv : ns ∈ p.visited := List.contains_iff_mem.mp hv
      have hdrop : ∀ halts, k.Turn halts p _ := fun _ => Turn.drop hv
      exact ended_ok (fun halts => .single (hdrop halts))
        (settled_of_visited ((hdrop false).sane_after hp).1 hv)
    · exact ended_visit hp (search_visit ns hp h₀.unvisited_lt)

/-! ### The beginning of a later computation -/

/-- In `ds'`, the definitions of `ns` are marked. -/
structure Marked (k : Pointer) (ns : Names) (ds ds' : Definitions) : Prop where
  get : ∀ n, ds'.get? n = if n ∈ ns then (ds.get? n).map k.mark else ds.get? n
  keys : ds'.current.keys = ds.current.keys
  rest : { ds' with current := ds.current } = ds

lemma marked_nil (k : Pointer) (ds : Definitions) : k.Marked [] ds ds := ⟨fun _ => rfl, rfl, rfl⟩

lemma mark_mark (k : Pointer) {d : Definition} : k.mark (k.mark d) = k.mark d := by
  rcases d with ⟨ns, rev, kind, mod, name, lits, taints, change, an, at', decs⟩
  cases k <;> cases change <;> rfl

lemma Marked.cons (h : k.Marked ns (ds.adjustAt n k.mark) ds') : k.Marked (n :: ns) ds ds' where
  get m := by
    rw [h.get, get?_adjustAt]
    by_cases hmn : m = n
    · subst hmn
      rw [if_pos rfl, if_pos List.mem_cons_self]
      split_ifs
      · rw [Option.map_map]
        congr 1
        funext d
        exact k.mark_mark
      · rfl
    · simp [hmn]
  keys := h.keys.trans (Table.keys_modify ds.current n k.mark)
  rest := by
    have hr := h.rest
    simp only [adjustAt, mk.injEq] at hr
    obtain ⟨-, h1, h2, h3, h4, h5, h6, h7⟩ := hr
    cases ds
    simp_all

lemma Marked.cons_absent (hn : ds.get? n = none) (h : k.Marked ns ds ds') :
    k.Marked (n :: ns) ds ds' where
  get m := by
    rw [h.get]
    by_cases hmn : m = n
    · subst hmn
      simp [hn]
    · simp [hmn]
  keys := h.keys
  rest := h.rest

lemma marked_forM (ns : Names) (p : Pass) :
    (∃ ds', ns.forM k.markOne p = (.ok (), { p with defs := ds' }) ∧ k.Marked ns p.defs ds') ∨
      (∃ e ds' done, ns.forM k.markOne p = (.error e, { p with defs := ds' }) ∧
        k.Marked done p.defs ds') ∧
        ∃ n ∈ ns, ∃ d, p.defs.get? n = some d ∧ k.refuses d := by
  induction ns generalizing p with
  | nil => exact .inl ⟨p.defs, rfl, marked_nil k p.defs⟩
  | cons n ns ih =>
    rw [run_forM_cons, markOne, run_bind, run_get]
    dsimp only
    cases hd : p.defs.get? n with
    | none =>
      rcases ih p with ⟨ds', heq, hm⟩ | ⟨⟨e, ds', done, heq, hm⟩, m, hmem, hch⟩
      · exact .inl ⟨ds', heq, hm.cons_absent hd⟩
      · exact .inr ⟨⟨e, ds', done, heq, hm⟩, m, List.mem_cons_of_mem n hmem, hch⟩
    | some d =>
      dsimp only
      rw [run_ite]
      by_cases hc : k.refuses d
      · rw [if_pos hc]
        exact .inr ⟨⟨_, p.defs, [], rfl, marked_nil k p.defs⟩, n, List.mem_cons_self, d, hd, hc⟩
      · rw [if_neg hc]
        rcases ih { p with defs := p.defs.adjustAt n k.mark } with
          ⟨ds', heq, hm⟩ | ⟨⟨e, ds', done, heq, hm⟩, m, hmem, d', hd', hch⟩
        · exact .inl ⟨ds', heq, hm.cons⟩
        · refine .inr ⟨⟨e, ds', n :: done, heq, hm.cons⟩, m, List.mem_cons_of_mem n hmem, ?_⟩
          -- a marked definition has no change of its names
          rw [get?_adjustAt] at hd'
          split_ifs at hd' with hmn
          · obtain ⟨f, -, rfl⟩ := Option.map_eq_some_iff.mp hd'
            cases k <;> cases hch
          · exact ⟨d', hd', hch⟩

/-! ### The computations -/

/-- `Closing k ds ok p`: the closures of `ds` are computed, and the table of `p` is left. -/
inductive Closing (k : Pointer) (ds : Definitions) : Bool → Pass → Prop where
  | first {ok : Bool} {p : Pass} (he : (k.cache ds).isEmpty = true)
      (ht : k.Turns (!ok) { defs := ds } p)
      (hs : ok = true → ∀ n ∈ ds.current.keys, k.Settled p n)
      (hstop : ok = false → k.Stops { defs := ds }) : Closing k ds ok p
  | idle (he : (k.cache ds).isEmpty = false) (ha : k.affectedBy ds = []) :
      Closing k ds true { defs := k.unnoted ds }
  | later {ok : Bool} {p : Pass} {ds' : Definitions} (he : (k.cache ds).isEmpty = false)
      (ha : k.affectedBy ds ≠ []) (hm : k.Marked (k.affectedBy ds) (k.unnoted ds) ds')
      (ht : k.Turns (!ok) { defs := ds', affected := k.affectedBy ds } p)
      (hs : ok = true → ∀ n ∈ k.affectedBy ds, k.Settled p n)
      (hstop : ok = false → k.Stops { defs := ds', affected := k.affectedBy ds }) :
      Closing k ds ok p
  /-- A definition that is to be marked has a change of its names left. -/
  | refused {p : Pass} {done : Names} (he : (k.cache ds).isEmpty = false)
      (hm : k.Marked done (k.unnoted ds) p.defs)
      (hn : ∃ n ∈ k.affectedBy ds, ∃ d, ds.get? n = some d ∧ d.change.hasNames = true) :
      Closing k ds false p

lemma sane_start (h : ds.Keyed) (affected : Names) : k.Sane { defs := ds, affected } :=
  ⟨h, nofun, nofun⟩

lemma Marked.keyed (h : k.Marked ns ds ds') (hk : ds.Keyed) : ds'.Keyed := by
  intro n e he
  rw [h.get] at he
  split_ifs at he
  · obtain ⟨d, hd, rfl⟩ := Option.map_eq_some_iff.mp he
    have := hk n d hd
    cases k <;> exact this
  · exact hk n e he

lemma Marked.sane (h : k.Marked ns ds ds') (hk : ds.Keyed) (affected : Names) :
    k.Sane { defs := ds', affected } := sane_start (h.keyed hk) affected

lemma keyed_unnoted (h : ds.Keyed) : (k.unnoted ds).Keyed := by
  cases k <;> exact h

lemma closing_compute (hk : ds.Keyed) : ∃ ok p, k.Closing ds ok p ∧ (k.compute ds).2 = p.defs ∧
      (ok ↔ (k.compute ds).1 = .ok ()) := by
  unfold compute
  dsimp only
  cases he : (k.cache ds).isEmpty with
  | true =>
    have hend := ended_forM (fun q n hq h₀ => ended_first rfl hq h₀) ds.current.keys
      (sane_start hk []) (k.after_refl _)
    obtain ⟨ok, hok, ht, hs, hstop⟩ := hend.ok
    exact ⟨ok, _, Closing.first he ht hs hstop, rfl, hok⟩
  | false =>
    rw [if_neg Bool.false_ne_true, run_bind]
    by_cases ha : k.affectedBy ds = []
    · rw [ha]
      exact ⟨true, _, Closing.idle he ha, rfl, by simp⟩
    · rcases marked_forM (k.affectedBy ds)
        { defs := k.unnoted ds, affected := k.affectedBy ds } with
        ⟨ds', heq, hm⟩ | ⟨⟨e, ds', done, heq, hm⟩, n, hmem, d, hd, hn⟩
      · have hend := ended_forM (fun q n hq h₀ => ended_later hq h₀) (k.affectedBy ds)
          (hm.sane (keyed_unnoted hk) (k.affectedBy ds)) (k.after_refl _)
        have hsize : ds'.current.size = ds.current.size := by
          rw [← Table.length_keys, ← Table.length_keys, hm.keys]
          cases k <;> rfl
        obtain ⟨ok, hok, ht, hs, hstop⟩ := hend.ok
        rw [hsize] at ht hs hok
        rw [heq]
        exact ⟨ok, _, Closing.later he ha hm ht hs hstop, rfl, hok⟩
      · rw [heq]
        refine ⟨false, { defs := ds' }, Closing.refused he hm ⟨n, hmem, d, ?_⟩, rfl, by simp⟩
        cases k with
        | names => cases hn
        | taints => exact ⟨hd, hn⟩

lemma closing_closeNames (hk : ds.Keyed) : ∃ p, names.Closing ds true p ∧
    closeNames ds = p.defs := by
  obtain ⟨ok, p, hp, heq, hok⟩ := closing_compute hk
  rw [compute_names] at heq hok
  exact ⟨p, hok.mpr rfl ▸ hp, heq⟩

lemma closing_closeTaints (hk : ds.Keyed) :
    ∃ ok p, taints.Closing ds ok p ∧ (closeTaints ds).2 = p.defs ∧
      (ok ↔ (closeTaints ds).1 = .ok ()) := compute_taints ▸ closing_compute hk

/-! ### What a computation does not change -/

lemma Marked.alike (h : k.Marked ns ds ds') (he : ds'.get? n = some e) :
    ∃ d, ds.get? n = some d ∧ Alike d e := by
  rw [h.get] at he
  split_ifs at he
  · obtain ⟨d, hd, rfl⟩ := Option.map_eq_some_iff.mp he
    exact ⟨d, hd, by cases k <;> exact alike_change d⟩
  · exact ⟨e, he, alike_refl e⟩

lemma get?_unnoted (ds : Definitions) (n : String) : (k.unnoted ds).get? n = ds.get? n := by
  cases k <;> rfl

lemma Closing.alike (h : k.Closing ds ok p) (hk : ds.Keyed) (he : p.defs.get? n = some e) :
    ∃ d, ds.get? n = some d ∧ Alike d e := by
  cases h with
  | first _ ht _ _ =>
    obtain ⟨d, hd, hs⟩ := (ht.sane_after (sane_start hk [])).2.settles n e he
    exact ⟨d, hd, hs.toAlike⟩
  | idle _ _ => exact ⟨e, by rwa [get?_unnoted] at he, alike_refl e⟩
  | later _ _ hm ht _ _ =>
    have hp := hm.sane (keyed_unnoted hk) (k.affectedBy ds)
    obtain ⟨d, hd, hs⟩ := (ht.sane_after hp).2.settles n e he
    obtain ⟨c, hc, ha⟩ := hm.alike hd
    rw [get?_unnoted] at hc
    exact ⟨c, hc, ha.trans hs.toAlike⟩
  | refused _ hm _ =>
    obtain ⟨c, hc, ha⟩ := hm.alike he
    rw [get?_unnoted] at hc
    exact ⟨c, hc, ha⟩

lemma Closing.keys (h : k.Closing ds ok p) (hk : ds.Keyed) :
    p.defs.current.keys = ds.current.keys := by
  have hun : (k.unnoted ds).current.keys = ds.current.keys := by cases k <;> rfl
  cases h with
  | first _ ht _ _ => exact (ht.sane_after (sane_start hk [])).2.keys
  | idle _ _ => exact hun
  | later _ _ hm ht _ _ =>
    have hp := hm.sane (keyed_unnoted hk) (k.affectedBy ds)
    exact (ht.sane_after hp).2.keys.trans (hm.keys.trans hun)
  | refused _ hm _ => exact hm.keys.trans hun

/-- A table without what a computation may change in it. -/
def untouched (k : Pointer) (ds : Definitions) : Definitions := k.unnoted (k.outside ds)

lemma Marked.untouched (h : k.Marked ns ds ds') : k.untouched ds' = k.untouched ds := by
  have hcur : k.untouched { ds' with current := ds.current } = k.untouched ds' := by
    cases k <;> rfl
  rw [← hcur, h.rest]

lemma untouched_unnoted : k.untouched (k.unnoted ds) = k.untouched ds := by
  cases k <;> rfl

lemma Closing.untouched (h : k.Closing ds ok p) (hk : ds.Keyed) :
    k.untouched p.defs = k.untouched ds := by
  cases h with
  | first _ ht _ _ => exact congrArg k.unnoted (ht.sane_after (sane_start hk [])).2.outside
  | idle _ _ => exact untouched_unnoted
  | later _ _ hm ht _ _ =>
    have hafter := (ht.sane_after (hm.sane (keyed_unnoted hk) _)).2
    exact (congrArg k.unnoted hafter.outside).trans (hm.untouched.trans untouched_unnoted)
  | refused _ hm _ => exact hm.untouched.trans untouched_unnoted

end Pointer

/-! ### Runs -/

namespace Definitions

open Pointer

variable {ds : Definitions} {I : Definitions → Prop} {k : Pointer} {ok replace : Bool}

/-- Definitions are at their own namespaces, and what is noted down as added is there. -/
structure WellFormed (ds : Definitions) : Prop where
  keyed : ds.Keyed
  tidy : ∀ ns d, ds.get? ns = some d → d.Tidy

lemma wellFormed_empty : WellFormed {} where
  keyed ns d h := by cases h
  tidy ns d h := by cases h

lemma Keyed.edit {ds' : Definitions} (h : ds.Keyed) (he : Edit replace ds ds') : ds'.Keyed := by
  intro ns e hget
  rcases he.origin hget with ⟨-, hns, -⟩ | ⟨d, hd, hg⟩
  · exact hns
  · rw [hg.gains.ns]
    exact h ns d hd

lemma Keyed.closing {p : Pass} (h : ds.Keyed) (hc : k.Closing ds ok p) : p.defs.Keyed := by
  intro ns e hget
  obtain ⟨d, hd, ha⟩ := hc.alike h hget
  rw [ha.ns]
  exact h ns d hd

lemma WellFormed.edit {ds' : Definitions} (h : ds.WellFormed) (he : Edit replace ds ds') :
    ds'.WellFormed where
  keyed := h.keyed.edit he
  tidy ns e hget := by
    rcases he.origin hget with ⟨hb, -, -⟩ | ⟨d, hd, hg⟩
    · exact hb.tidy
    · exact hg.gains.tidy (h.tidy ns d hd)

lemma WellFormed.closing {p : Pass} (h : ds.WellFormed) (hc : k.Closing ds ok p) :
    p.defs.WellFormed where
  keyed := h.keyed.closing hc
  tidy ns e hget := by
    obtain ⟨d, hd, ha⟩ := hc.alike h.keyed hget
    exact ha.tidy (h.tidy ns d hd)

lemma Op.closing {op : Op} (hc : op.isClose) (hk : ds.Keyed) :
    ∃ (k : Pointer) (ok : Bool) (p : Pass), (k = .names → ok) ∧ k.Closing ds ok p ∧
      (op.run ds).2 = p.defs := by
  cases op with
  | closeNames =>
    obtain ⟨p, hp, heq⟩ := closing_closeNames hk
    exact ⟨.names, true, p, fun _ => rfl, hp, heq⟩
  | closeTaints =>
    obtain ⟨ok, p, hp, heq, -⟩ := closing_closeTaints hk
    exact ⟨.taints, ok, p, nofun, hp, heq⟩
  | _ => cases hc

/-- What edits and computations of closures keep is kept by an operation. -/
lemma Op.keeps (replace : Bool) (hkeyed : ∀ ds, I ds → ds.Keyed)
    (hedit : ∀ ds ds', Edit replace ds ds' → I ds → I ds')
    (hclose : ∀ (k : Pointer) ds ok p, (k = .names → ok = true) → k.Closing ds ok p → I ds →
      I p.defs)
    {op : Op} (hop : op.isAssign = true → replace = true) (hds : I ds) : I (op.run ds).2 := by
  by_cases hc : op.isClose = true
  · obtain ⟨k, ok, p, hok, hp, heq⟩ := Op.closing hc (hkeyed ds hds)
    rw [heq]
    exact hclose k ds ok p hok hp hds
  · have hchain : Edits replace ds (op.run ds).2 := by
      rw [Bool.not_eq_true] at hc
      cases replace with
      | true => exact Op.leads_run_replace hc ds
      | false => exact Op.leads_run hc (Bool.eq_false_iff.mpr fun ha => by cases hop ha) ds
    generalize (op.run ds).2 = ds' at hchain ⊢
    induction hchain with
    | refl => exact hds
    | tail _ hlast ih => exact hedit _ _ hlast ih

lemma run_induction (replace : Bool)
    (hedit : ∀ ds ds', ds.WellFormed → Edit replace ds ds' → I ds → I ds')
    (hclose : ∀ (k : Pointer) ds ok p, ds.WellFormed → (k = .names → ok = true) →
      k.Closing ds ok p → I ds → I p.defs) {ops : List Op}
    (hops : ∀ op ∈ ops, op.isAssign = true → replace = true) (hwf : ds.WellFormed) (hds : I ds) :
    (run ops ds).WellFormed ∧ I (run ops ds) := by
  refine run_keeps (I := fun ds => ds.WellFormed ∧ I ds) (fun op hop ds hI => ?_) ⟨hwf, hds⟩
  refine Op.keeps replace (I := fun ds => ds.WellFormed ∧ I ds) (fun ds h => h.1.keyed) ?_ ?_
    (hops op hop) hI
  · exact fun ds ds' he h => ⟨h.1.edit he, hedit ds ds' h.1 he h.2⟩
  · exact fun k ds ok p hok hc h => ⟨h.1.closing hc, hclose k ds ok p h.1 hok hc h.2⟩

end Definitions

end SinkTrace
