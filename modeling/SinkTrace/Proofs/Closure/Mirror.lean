import SinkTrace.Proofs.Closure.Marks

/-!
# The reverse direction of the closures

Both closures are kept in both directions, and a later computation finds what a change affects in
the reverse one. The reverse direction is never computed as a whole: the end of a visit enters the
difference between the closure that the definition had and the one that it gets. `Mirrors` says that
the two directions agree, but for a definition in its own closure, which is entered there without a
difference when a visit begins.
-/

namespace SinkTrace

open Definitions Pointer Relation Table

variable {k : Pointer} {ds ds' : Definitions} {p : Pass}

namespace Definitions

variable {r t : NameTable}

/-! ### Two directions of one relation -/

/-- The rows of `r` are the columns of `t`, except for a name in its own row. -/
structure Mirrors (t r : NameTable) : Prop where
  nodup : ∀ x, (r.getD x []).Nodup
  mem_iff : ∀ d x, x ≠ d → (d ∈ r.getD x [] ↔ x ∈ t.getD d [])
  mem_self : ∀ d, d ∈ r.getD d [] → d ∈ t.getD d []

lemma mirrors_empty : Mirrors {} {} := ⟨fun _ => List.nodup_nil, fun _ _ _ => ⟨nofun, nofun⟩, nofun⟩

lemma Mirrors.congr {t' : NameTable} (h : Mirrors t r) (ht : ∀ d, t'.getD d [] = t.getD d []) :
    Mirrors t' r where
  nodup := h.nodup
  mem_iff d x hne := by
    rw [ht]
    exact h.mem_iff d x hne
  mem_self d hd := by
    rw [ht]
    exact h.mem_self d hd

lemma Mirrors.set_self (h : Mirrors t r) {d : String} (hd : t.getD d [] = []) {s : Names}
    (hs : ∀ x ∈ s, x = d) : Mirrors (t.set d s) r where
  nodup := h.nodup
  mem_iff e x hne := by
    rw [getD_set]
    split_ifs with he
    · subst he
      have hx : x ∉ s := fun hx => hne (hs x hx)
      rw [h.mem_iff e x hne, hd]
      simp [hx]
    · exact h.mem_iff e x hne
  mem_self e he := by
    have hmem := h.mem_self e he
    rw [getD_set]
    split_ifs with hed
    · rw [hed, hd] at hmem
      cases hmem
    · exact hmem

lemma rows_erase (d : String) (xs : Names) (hr : ∀ x, (r.getD x []).Nodup) :
    (∀ x, ((xs.foldl (fun t x => t.modify x fun s => s.erase d) r).getD x []).Nodup) ∧
      ∀ e x, e ∈ (xs.foldl (fun t x => t.modify x fun s => s.erase d) r).getD x [] ↔
        e ∈ r.getD x [] ∧ (e = d → x ∉ xs) := by
  induction xs generalizing r with
  | nil => exact ⟨hr, by simp⟩
  | cons y ys ih =>
    have hrow : ∀ x, (r.modify y fun s => s.erase d).getD x [] =
        if x = y then (r.getD x []).erase d else r.getD x [] :=
      fun x => getD_modify rfl
    have hnodup : ∀ x, ((r.modify y fun s => s.erase d).getD x []).Nodup := by
      intro x
      rw [hrow]
      split_ifs
      · exact (hr x).erase d
      · exact hr x
    obtain ⟨hnd, hmem⟩ := ih hnodup
    refine ⟨hnd, fun e x => ?_⟩
    rw [List.foldl_cons, hmem, hrow]
    split_ifs with hxy
    · rw [(hr x).mem_erase_iff]
      subst hxy
      simp only [List.mem_cons, true_or, not_true_eq_false, imp_false, ne_eq]
      tauto
    · simp only [List.mem_cons, hxy, false_or]

lemma rows_insert (d : String) (xs : Names) (hr : ∀ x, (r.getD x []).Nodup) :
    (∀ x, ((xs.foldl (fun t x => t.set x ((t.getD x []).insertEnd d)) r).getD x []).Nodup) ∧
      ∀ e x, e ∈ (xs.foldl (fun t x => t.set x ((t.getD x []).insertEnd d)) r).getD x [] ↔
        e ∈ r.getD x [] ∨ e = d ∧ x ∈ xs := by
  induction xs generalizing r with
  | nil => exact ⟨hr, by simp⟩
  | cons y ys ih =>
    have hnodup : ∀ x, ((r.set y ((r.getD y []).insertEnd d)).getD x []).Nodup := by
      intro x
      rw [getD_set]
      split_ifs
      · exact List.nodup_insertEnd (hr y)
      · exact hr x
    obtain ⟨hnd, hmem⟩ := ih hnodup
    refine ⟨hnd, fun e x => ?_⟩
    rw [List.foldl_cons, hmem, getD_set]
    split_ifs with hxy
    · subst hxy
      rw [List.mem_insertEnd_iff]
      simp only [List.mem_cons, true_or, and_true]
      tauto
    · simp only [List.mem_cons, hxy, false_or]

lemma Mirrors.store (h : Mirrors t r) (d : String) (new : Names) :
    Mirrors (t.set d new) (reindex r d (t.getD d []) new) := by
  obtain ⟨hnd, hdrop⟩ := rows_erase d (Names.diff (t.getD d []) new) h.nodup
  obtain ⟨hnd', hadd⟩ := rows_insert d (Names.diff new (t.getD d [])) hnd
  refine ⟨hnd', fun e x hne => ?_, fun e he => ?_⟩
  · unfold reindex
    rw [hadd, hdrop, h.mem_iff e x hne, getD_set]
    simp only [Names.mem_diff]
    split_ifs with hed
    · subst hed
      tauto
    · tauto
  · unfold reindex at he
    rw [hadd, hdrop] at he
    rw [getD_set]
    simp only [Names.mem_diff] at he
    split_ifs with hed
    · subst hed
      have hself := h.mem_self e
      tauto
    · exact h.mem_self e (by tauto)

end Definitions

namespace Pointer

variable {ns : String}

def reverse : Pointer → Definitions → NameTable
  | names, ds => ds.reverseClosure
  | taints, ds => ds.reverseTaints

abbrev Mirrored (k : Pointer) (ds : Definitions) : Prop := Mirrors (k.cache ds) (k.reverse ds)

lemma Mirrored.of_cache (h : k.Mirrored ds) (hc : k.cache ds' = k.cache ds)
    (hr : k.reverse ds' = k.reverse ds) : k.Mirrored ds' := by
  unfold Mirrored
  rwa [hc, hr]

/-! ### The steps of a visit -/

lemma mirrored_enter (h : k.Mirrored p.defs) {d : Definition} (hns : d.ns = ns) :
    k.Mirrored (k.enter p ns (k.start d)).defs := by
  have hstart : ∀ x ∈ k.start d, x = ns := by
    intro x hx
    unfold start at hx
    split_ifs at hx
    · rw [List.mem_singleton.mp hx, hns]
    · cases hx
  have hrev : k.reverse (k.enter p ns (k.start d)).defs = k.reverse p.defs := by cases k <;> rfl
  unfold Mirrored
  rw [hrev]
  by_cases he : k.closure p.defs ns = []
  · refine (h.set_self he hstart).congr fun m => ?_
    simp only [getD, cache_enter, get?_set, he, and_true]
  · refine h.congr fun m => ?_
    simp only [getD, cache_enter, he, and_false, if_false]

lemma mirrored_settle (h : k.Mirrored p.defs) : k.Mirrored (k.settle p ns).defs := by
  refine h.of_cache cache_settle ?_
  unfold settle
  split_ifs <;> cases k <;> rfl

lemma mirrored_store (h : k.Mirrored p.defs) {r : Names} : k.Mirrored (k.store p ns r).defs := by
  have hstore := Mirrors.store h ns r
  cases k <;> exact hstore

end Pointer

namespace Search

variable {q : Pass} {t : Task} {o : Option Names}

lemma mirrored (h : Search k p t o q) (hp : k.Sane p) (hm : k.Mirrored p.defs) :
    k.Mirrored q.defs := by
  induction h with
  | absent hd => exact hm
  | known hd hk hc => exact hm
  | close hd ho hf hr hs ihf ihs =>
    have hop := hp.opening hd ho hf.sane_frame
    have hfresh := ihf hop.sane_enter (mirrored_enter hm (hp.keyed _ _ hd))
    exact mirrored_store (ihs hop.sane_settle (mirrored_settle hfresh))
  | stopFresh hd ho hf hr ihf =>
    have hop := hp.opening hd ho hf.sane_frame
    exact ihf hop.sane_enter (mirrored_enter hm (hp.keyed _ _ hd))
  | stopRest hd ho hf hs ihf ihs =>
    have hop := hp.opening hd ho hf.sane_frame
    have hfresh := ihf hop.sane_enter (mirrored_enter hm (hp.keyed _ _ hd))
    exact ihs hop.sane_settle (mirrored_settle hfresh)
  | nil => exact hm
  | mark hn => exact hm
  | skip hn h hs ih => exact ih hp hm
  | step hn hd hmem hv hs ihv ihs => exact ihs (hv.sane_frame hp).1 (ihv hp hm)
  | stop hn hd hmem hv ih => exact ih hp hm

end Search

namespace Pointer

variable {j : Pointer} {ok : Bool}

/-! ### Whole computations -/

lemma Turns.mirrored {halts : Bool} {q : Pass} (h : k.Turns halts p q) (hp : k.Sane p)
    (hm : k.Mirrored p.defs) : k.Mirrored q.defs := by
  induction h with
  | refl => exact hm
  | tail hinit hlast ih =>
    obtain ⟨hq, -⟩ := Turns.sane_after hinit hp
    cases hlast with
    | reset ns ha => exact ih.of_cache (by cases k <;> rfl) (by cases k <;> rfl)
    | drop hv => exact ih.of_cache (by cases k <;> rfl) (by cases k <;> rfl)
    | visit hs _ => exact hs.mirrored hq ih

lemma Marked.reverse {ns : Names} (h : k.Marked ns ds ds') : j.reverse ds' = j.reverse ds := by
  have := congrArg j.reverse h.rest
  cases j <;> exact this

lemma reverse_unnoted : j.reverse (k.unnoted ds) = j.reverse ds := by
  cases k <;> cases j <;> rfl

lemma Closing.mirrored (h : k.Closing ds ok p) (hk : ds.Keyed) (hm : k.Mirrored ds) :
    k.Mirrored p.defs := by
  have hun : k.Mirrored (k.unnoted ds) := hm.of_cache cache_unnoted reverse_unnoted
  cases h with
  | first _ ht _ _ => exact ht.mirrored (sane_start hk []) hm
  | idle _ _ => exact hun
  | later _ _ hmark ht _ _ =>
    refine ht.mirrored (hmark.sane (keyed_unnoted hk) _) ?_
    exact hun.of_cache (hmark.cache k) hmark.reverse
  | refused _ hmark _ => exact hun.of_cache (hmark.cache k) hmark.reverse

lemma Closing.other_reverse (h : k.Closing ds ok p) (hk : ds.Keyed) (hj : j ≠ k) :
    j.reverse p.defs = j.reverse ds := by
  have hsame := congrArg j.reverse (h.untouched hk)
  cases k <;> cases j
  · exact absurd rfl hj
  · exact hsame
  · exact hsame
  · exact absurd rfl hj

lemma Mirrored.closing (hm : k.Mirrored ds) (hk : ds.Keyed) (hc : j.Closing ds ok p) :
    k.Mirrored p.defs := by
  by_cases hj : k = j
  · subst hj
    exact hc.mirrored hk hm
  · exact hm.of_cache (hc.other hk hj) (hc.other_reverse hk hj)

lemma Mirrored.edit {replace : Bool} (hm : k.Mirrored ds) (he : Edit replace ds ds') :
    k.Mirrored ds' := by
  have hsame := he.sameCaches
  cases k with
  | names => exact hm.of_cache hsame.closure hsame.reverseClosure
  | taints => exact hm.of_cache hsame.taints hsame.reverseTaints

end Pointer

/-! ### Runs -/

lemma Table.Related.perm_getD {t u : NameTable} (h : Related List.Perm t u)
    (x : String) : (t.getD x []).Perm (u.getD x []) := by
  have hx := h x
  unfold getD
  generalize t.get? x = s at hx
  generalize u.get? x = s' at hx
  cases hx with
  | some hperm => exact hperm
  | none => exact List.Perm.refl []

namespace Definitions

lemma Mirrors.rearranged {t r t' r' : NameTable} (h : Mirrors t r)
    (ht : Related List.Perm t t') (hr : Related List.Perm r r') : Mirrors t' r' where
  nodup x := (hr.perm_getD x).nodup_iff.mp (h.nodup x)
  mem_iff d x hne := by
    rw [← (hr.perm_getD x).mem_iff, ← (ht.perm_getD d).mem_iff]
    exact h.mem_iff d x hne
  mem_self d hd := by
    rw [← (hr.perm_getD d).mem_iff] at hd
    rw [← (ht.perm_getD d).mem_iff]
    exact h.mem_self d hd

lemma Rearranged.mirrored (h : Rearranged ds ds') {k : Pointer}
    (hm : k.Mirrored ds) : k.Mirrored ds' := by
  cases k with
  | names => exact Mirrors.rearranged hm h.closure h.reverseClosure
  | taints => exact Mirrors.rearranged hm h.taints h.reverseTaints

lemma mirrored_of_moves (h : ReflTransGen Move {} ds) :
    ds.Keyed ∧ ∀ k : Pointer, k.Mirrored ds := by
  induction h with
  | refl => exact ⟨wellFormed_empty.keyed, fun k => by cases k <;> exact mirrors_empty⟩
  | tail _ hlast ih =>
    cases hlast with
    | op o =>
      refine Op.keeps true (I := fun e => e.Keyed ∧ ∀ k : Pointer, k.Mirrored e)
        (fun e h => h.1) ?_ ?_ (fun _ => rfl) ih
      · exact fun e _ hedit h => ⟨h.1.edit hedit, fun k => (h.2 k).edit hedit⟩
      · exact fun j e _ p _ hc h => ⟨h.1.closing hc, fun k => (h.2 k).closing h.1 hc⟩
    | rearrange hr => exact ⟨hr.keyed ih.1, fun k => hr.mirrored (ih.2 k)⟩

/-- In every state of a run the reverse closures are the closures read backwards: `d` stands in that
of another name `x` exactly if `x` stands in the closure of `d`. The same holds for the taints. -/
theorem mem_reverse_caches_iff {ds : Definitions} (h : ReflTransGen Move {} ds) (d x : String) :
    (x ≠ d → (d ∈ ds.reverseClosure.getD x [] ↔ x ∈ ds.closure.getD d []) ∧
        (d ∈ ds.reverseTaints.getD x [] ↔ x ∈ ds.taints.getD d [])) ∧
      (d ∈ ds.reverseClosure.getD d [] → d ∈ ds.closure.getD d []) ∧
        (d ∈ ds.reverseTaints.getD d [] → d ∈ ds.taints.getD d []) := by
  obtain ⟨-, hm⟩ := mirrored_of_moves h
  have hnames := hm .names
  have htaints := hm .taints
  exact ⟨fun hne => ⟨hnames.mem_iff d x hne, htaints.mem_iff d x hne⟩, hnames.mem_self d,
    htaints.mem_self d⟩

/-- A chain whose end gets a name and a taint after the closures were computed. -/
def lengthenedOps : List Op :=
  [.var "a", .var "b", .var "c", .addName { ns := "a" } (.str "b"),
    .addTaint { ns := "a" } (.str "b"), .closeNames, .closeTaints,
    .addName { ns := "b" } (.str "c"), .addTaint { ns := "b" } (.str "Taint-Sink-s"), .closeNames,
    .closeTaints]

theorem mem_reverse_caches_iff_lengthened :
    "b" ∈ (run lengthenedOps {}).reverseClosure.getD "c" [] ∧
      "b" ∈ (run lengthenedOps {}).reverseTaints.getD "Taint-Sink-s" [] ∧
      "a" ∉ (run lengthenedOps {}).reverseClosure.getD "c" [] := by
  have hrun : ReflTransGen Move {} (run lengthenedOps {}) := moves_run _ _
  have hb : "c" ∈ (run lengthenedOps {}).closure.getD "b" [] := by decide +kernel
  have hs : "Taint-Sink-s" ∈ (run lengthenedOps {}).taints.getD "b" [] := by decide +kernel
  have ha : "c" ∉ (run lengthenedOps {}).closure.getD "a" [] := by decide +kernel
  refine ⟨?_, ?_, fun h => ha ?_⟩
  · exact ((mem_reverse_caches_iff hrun "b" "c").1 (by decide)).1.mpr hb
  · exact ((mem_reverse_caches_iff hrun "b" "Taint-Sink-s").1 (by decide)).2.mpr hs
  · exact ((mem_reverse_caches_iff hrun "a" "c").1 (by decide)).1.mp h

end Definitions

end SinkTrace
