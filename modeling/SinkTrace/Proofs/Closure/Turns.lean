import SinkTrace.Proofs.Closure.Search

/-!
# Turns of a computation

A computation of the closures is a list of turns, one for each definition in the first computation
and one for each affected namespace in a later one. Every turn is a search at most. Pointers are
never touched by it, and a turn that ends well leaves its definition settled, with a closure and
without a change.
-/

namespace SinkTrace

open Definitions Relation

namespace Pointer

variable {k : Pointer} {halts : Bool} {d e : Definition} {p q : Pass} {n ns : String}
  {r : Except Fault Unit × Pass}

/-! ### Turns -/

/-- What happens in a turn. If the computation halts, a visit may stop without an outcome. -/
inductive Turn (k : Pointer) (halts : Bool) : Pass → Pass → Prop where
  | reset {p : Pass} (ns : String) (ha : p.affected = []) :
      Turn k halts p { p with defs := p.defs.adjustAt ns fun d => { d with change := .nothing } }
  | drop {p : Pass} {ns : String} (hv : ns ∈ p.visited) :
      Turn k halts p { p with defs := p.defs.adjustAt ns k.calm }
  | visit {p q : Pass} {ns : String} {o : Option Names} (h : Search k p (.visit ns) o q)
      (ho : o = none → halts = true) : Turn k halts p q

/-- `e` is `d` but for its state of change and for additions that have been taken in. -/
structure Alike (d e : Definition) : Prop where
  ns : e.ns = d.ns
  revision : e.revision = d.revision
  pointer : ∀ j : Pointer, j.pointer e = j.pointer d
  added : ∀ j : Pointer, j.added e = j.added d ∨ j.added e = {}

/-- `e` is `d` with less noted down, for both kinds of pointers. -/
structure Settles (d e : Definition) : Prop extends Alike d e where
  changed : ∀ j : Pointer, j.changed e = true → j.changed d = true

lemma alike_refl (d : Definition) : Alike d d := ⟨rfl, rfl, fun _ => rfl, fun _ => .inl rfl⟩

lemma Alike.trans {a b c : Definition} (h : Alike a b) (h' : Alike b c) : Alike a c where
  ns := h'.ns.trans h.ns
  revision := h'.revision.trans h.revision
  pointer j := (h'.pointer j).trans (h.pointer j)
  added j := by
    rcases h'.added j with hbc | hbc
    · rw [hbc]
      exact h.added j
    · exact .inr hbc

lemma settles_refl (d : Definition) : Settles d d := ⟨alike_refl d, fun _ h => h⟩

lemma Settles.trans {a b c : Definition} (h : Settles a b) (h' : Settles b c) : Settles a c :=
  ⟨h.toAlike.trans h'.toAlike, fun j hc => h.changed j (h'.changed j hc)⟩

lemma added_sub (h : d.Tidy) (k : Pointer) : ∀ x ∈ (k.added d).names, x ∈ (k.pointer d).names := by
  cases k
  · exact h.addedNames_sub
  · exact h.addedTaints_sub

lemma Alike.tidy (h : Alike d e) (hd : d.Tidy) : e.Tidy := by
  have hsub : ∀ k : Pointer, ∀ x ∈ (k.added e).names, x ∈ (k.pointer e).names := by
    intro k x hx
    rw [h.pointer k]
    rcases h.added k with ha | ha
    · exact added_sub hd k x (ha ▸ hx)
    · rw [ha] at hx
      cases hx
  refine ⟨hsub names, hsub taints, fun hnil => ?_⟩
  have hnil : (taints.pointer e).scalars = [] := hnil
  rw [h.pointer taints] at hnil
  rcases h.added taints with ha | ha
  · exact (congrArg PointSet.scalars ha).trans (hd.addedTaints_names hnil)
  · exact congrArg PointSet.scalars ha

lemma Fades.other (h : k.Fades d e) {j : Pointer} (hj : j ≠ k) :
    j.added e = j.added d ∧ j.changed e = j.changed d := by
  have hadd := congrArg (Pointer.added j) h.still
  have hchg := congrArg (Pointer.changed j) h.still
  cases k <;> cases j
  · exact absurd rfl hj
  · exact ⟨hadd, by simpa [Pointer.still, emptied, calm, Pointer.changed] using hchg⟩
  · exact ⟨hadd, by simpa [Pointer.still, emptied, calm, Pointer.changed] using hchg⟩
  · exact absurd rfl hj

lemma Fades.settles (h : k.Fades d e) : Settles d e where
  ns := h.ns
  revision := by
    have := congrArg Definition.revision h.still
    cases k <;> exact this
  pointer := h.pointer
  added j := by
    by_cases hj : j = k
    · rw [hj]
      exact h.added
    · exact .inl (h.other hj).1
  changed j := by
    by_cases hj : j = k
    · rw [hj]
      exact h.changed
    · rw [(h.other hj).2]
      exact id

/-- `q` comes after `p` in a computation. -/
structure After (k : Pointer) (p q : Pass) : Prop where
  affected : q.affected = p.affected
  keys : q.defs.current.keys = p.defs.current.keys
  visited : ∀ n ∈ p.visited, n ∈ q.visited
  unseen : ∀ n, n ∉ q.visited → (k.cache q.defs).get? n = (k.cache p.defs).get? n
  settles : ∀ n e, q.defs.get? n = some e → ∃ d, p.defs.get? n = some d ∧ Settles d e
  outside : k.outside q.defs = k.outside p.defs

lemma after_refl (k : Pointer) (p : Pass) : k.After p p where
  affected := rfl
  keys := rfl
  visited _ hn := hn
  unseen _ _ := rfl
  settles _ e he := ⟨e, he, settles_refl e⟩
  outside := rfl

lemma After.trans {r : Pass} (h : k.After p q) (h' : k.After q r) : k.After p r where
  affected := h'.affected.trans h.affected
  keys := h'.keys.trans h.keys
  visited n hn := h'.visited n (h.visited n hn)
  unseen n hn := (h'.unseen n hn).trans (h.unseen n fun hq => hn (h'.visited n hq))
  settles n f hf := by
    obtain ⟨e, he, hef⟩ := h'.settles n f hf
    obtain ⟨d, hd, hde⟩ := h.settles n e he
    exact ⟨d, hd, hde.trans hef⟩
  outside := h'.outside.trans h.outside

lemma Frame.after (h : k.Frame p q) : k.After p q where
  affected := h.affected
  keys := h.keys
  visited := h.visited
  unseen n hn := (h.unseen n hn).2
  settles n e he := by
    obtain ⟨d, hd, hf⟩ := h.fades n e he
    exact ⟨d, hd, hf.settles⟩
  outside := h.outside

lemma After.contains (h : k.After p q) : q.defs.contains n = p.defs.contains n := by
  rw [Bool.eq_iff_iff, Definitions.contains, Definitions.contains, ← Table.mem_keys_iff,
    ← Table.mem_keys_iff, h.keys]

lemma After.kept (h : k.After p q) (hd : p.defs.get? n = some d) :
    ∃ e, q.defs.get? n = some e ∧ Settles d e := by
  have hq : q.defs.contains n := h.contains.trans (contains_of_get? hd)
  obtain ⟨e, he⟩ := contains_iff.mp hq
  obtain ⟨d', hd', hf⟩ := h.settles n e he
  obtain rfl : d = d' := Option.some.inj (hd.symm.trans hd')
  exact ⟨e, he, hf⟩

lemma after_adjustAt (k : Pointer) (p : Pass) (ns : String) {f : Definition → Definition}
    (hf : ∀ d, Settles d (f d)) : k.After p { p with defs := p.defs.adjustAt ns f } where
  affected := rfl
  keys := Table.keys_modify p.defs.current ns f
  visited _ hn := hn
  unseen _ _ := by cases k <;> rfl
  settles n e he := by
    rw [get?_adjustAt] at he
    split_ifs at he
    · obtain ⟨d, hd, rfl⟩ := Option.map_eq_some_iff.mp he
      exact ⟨d, hd, hf d⟩
    · exact ⟨e, he, settles_refl e⟩
  outside := by cases k <;> rfl

lemma After.sane (h : k.After p q) (hv : q.visited = p.visited)
    (hc : k.cache q.defs = k.cache p.defs)
    (hp : k.Sane p) : k.Sane q where
  keyed n e he := by
    obtain ⟨d, hd, hs⟩ := h.settles n e he
    rw [hs.ns]
    exact hp.keyed n d hd
  cached n hn := by
    rw [hc]
    exact hp.cached n (hv ▸ hn)
  calm n hn e he := by
    obtain ⟨d, hd, hs⟩ := h.settles n e he
    have hcalm := hp.calm n (hv ▸ hn) d hd
    rw [Bool.eq_false_iff] at hcalm ⊢
    exact fun hch => hcalm (hs.changed k hch)

lemma alike_change (d : Definition) {c : Change} : Alike d { d with change := c } where
  ns := rfl
  revision := rfl
  pointer j := by cases j <;> rfl
  added j := by cases j <;> exact .inl rfl

lemma settles_reset (d : Definition) : Settles d { d with change := .nothing } :=
  ⟨alike_change d, fun j h => by cases j <;> cases h⟩

lemma Turn.sane_after (h : k.Turn halts p q) (hp : k.Sane p) : k.Sane q ∧ k.After p q := by
  cases h with
  | reset ns ha =>
    have hafter := after_adjustAt k p ns settles_reset
    exact ⟨hafter.sane rfl (by cases k <;> rfl) hp, hafter⟩
  | @drop ns hv =>
    have hafter := after_adjustAt k p ns fun d => (k.fades_calm d).settles
    exact ⟨hafter.sane rfl (by cases k <;> rfl) hp, hafter⟩
  | visit h ho =>
    obtain ⟨hq, hf⟩ := h.sane_frame hp
    exact ⟨hq, hf.after⟩

lemma Turn.frame (h : k.Turn halts p q) (ha : p.affected ≠ []) (hp : k.Sane p) : k.Frame p q := by
  cases h with
  | reset ns ha' => exact absurd ha' ha
  | @drop ns hv =>
    have hafter := after_adjustAt k p ns fun d => (k.fades_calm d).settles
    refine ⟨rfl, hafter.keys, hafter.visited, fun n _ => by cases k <;> rfl, fun n hn => ?_, ?_,
      hafter.outside⟩
    · rw [get?_adjustAt, if_neg]
      · exact ⟨rfl, hafter.unseen n hn⟩
      · rintro rfl
        exact hn hv
    · intro n e he
      rw [get?_adjustAt] at he
      split_ifs at he
      · obtain ⟨d, hd, rfl⟩ := Option.map_eq_some_iff.mp he
        exact ⟨d, hd, k.fades_calm d⟩
      · exact ⟨e, he, k.fades_refl e⟩
  | visit h ho => exact (h.sane_frame hp).2

abbrev Turns (k : Pointer) (halts : Bool) : Pass → Pass → Prop := ReflTransGen (k.Turn halts)

lemma Turns.sane_after (h : k.Turns halts p q) (hp : k.Sane p) : k.Sane q ∧ k.After p q := by
  induction h with
  | refl => exact ⟨hp, k.after_refl p⟩
  | tail _ hlast ih =>
    obtain ⟨hq, hafter⟩ := ih
    obtain ⟨hr, hafter'⟩ := hlast.sane_after hq
    exact ⟨hr, hafter.trans hafter'⟩

lemma Turns.frame (h : k.Turns halts p q) (ha : p.affected ≠ []) (hp : k.Sane p) : k.Frame p q := by
  induction h with
  | refl => exact k.frame_refl
  | tail hinit hlast ih =>
    obtain ⟨hq, hafter⟩ := Turns.sane_after hinit hp
    exact ih.trans (hlast.frame (by rwa [hafter.affected]) hq)

/-! ### Settled definitions -/

/-- If `ns` is defined, it has a closure and no change that is to be taken in. -/
def Settled (k : Pointer) (p : Pass) (ns : String) : Prop :=
  ∀ d, p.defs.get? ns = some d → k.changed d = false ∧ ∃ xs, (k.cache p.defs).get? ns = some xs

lemma Settled.after (h : k.Settled p ns) (hf : k.After p q) (hq : k.Sane q) : k.Settled q ns := by
  intro e he
  obtain ⟨d, hd, hs⟩ := hf.settles ns e he
  obtain ⟨hch, xs, hxs⟩ := h d hd
  refine ⟨?_, ?_⟩
  · rw [Bool.eq_false_iff] at hch ⊢
    exact fun hc => hch (hs.changed k hc)
  · by_cases hv : ns ∈ q.visited
    · exact hq.cached ns hv
    · exact ⟨xs, (hf.unseen ns hv).trans hxs⟩

lemma settled_of_visited (hp : k.Sane p) (hns : ns ∈ p.visited) : k.Settled p ns :=
  fun d hd => ⟨hp.calm ns hns d hd, hp.cached ns hns⟩

lemma After.size (h : k.After p q) : q.defs.current.size = p.defs.current.size := by
  rw [← Table.length_keys, ← Table.length_keys, h.keys]

lemma settled_of_search {r : Names} (h : Search k p (.visit ns) (some r) q) (hp : k.Sane p) :
    k.Settled q ns := by
  intro e he
  obtain ⟨hcache, hch⟩ := h.visit_result hp he
  exact ⟨hch, r, hcache⟩

def Stops (k : Pointer) (p : Pass) : Prop :=
  ∃ q r ns, k.Turns false p q ∧ Search k q (.visit ns) none r

/-- All turns are settled, unless a search has no outcome. -/
structure Ended (k : Pointer) (p : Pass) (ns : List String) (r : Except Fault Unit × Pass) :
    Prop where
  turns : ∀ halts : Bool, (r.1 ≠ .ok () → halts = true) → k.Turns halts p r.2
  settled : r.1 = .ok () → ∀ n ∈ ns, k.Settled r.2 n
  stops : r.1 ≠ .ok () → k.Stops p

lemma ended_ok (ht : ∀ halts, k.Turns halts p q) (hs : k.Settled q ns) :
    k.Ended p [ns] (.ok (), q) :=
  ⟨fun halts _ => ht halts, fun _ _ hm => List.mem_singleton.mp hm ▸ hs, fun h => absurd rfl h⟩

lemma Ended.head {ns : List String} (ht : ∀ halts, k.Turns halts p q) (h : k.Ended q ns r) :
    k.Ended p ns r where
  turns halts hr := (ht halts).trans (h.turns halts hr)
  settled := h.settled
  stops hne := by
    obtain ⟨q', r', m, hq', hsearch⟩ := h.stops hne
    exact ⟨q', r', m, (ht false).trans hq', hsearch⟩

lemma ended_forM {f : String → TaintPass Unit} {p₀ : Pass}
    (hf : ∀ q n, k.Sane q → k.After p₀ q → k.Ended q [n] (f n q)) (ns : List String) (hp : k.Sane p)
    (h₀ : k.After p₀ p) : k.Ended p ns (ns.forM f p) := by
  induction ns generalizing p with
  | nil => exact ⟨fun _ _ => .refl, fun _ => nofun, fun h => absurd rfl h⟩
  | cons n ns ih =>
    have hn := hf p n hp h₀
    rw [Act.run_forM_cons]
    rcases hrun : f n p with ⟨e | u, q⟩
    · rw [hrun] at hn
      exact ⟨fun halts hr => hn.turns halts fun _ => hr nofun, nofun, fun _ => hn.stops nofun⟩
    · rw [hrun] at hn
      have hturns : ∀ halts, k.Turns halts p q := fun halts => hn.turns halts fun h => absurd rfl h
      obtain ⟨hq, hafter⟩ := (hturns false).sane_after hp
      have hns := ih hq (h₀.trans hafter)
      refine ⟨(hns.head hturns).turns, fun hok m hm => ?_, (hns.head hturns).stops⟩
      obtain ⟨hr, hafter'⟩ := (hns.turns true fun _ => rfl).sane_after hq
      rcases List.mem_cons.mp hm with rfl | hm
      · exact (hn.settled rfl m List.mem_cons_self).after hafter' hr
      · exact hns.settled hok m hm

lemma Ended.ok {ns : List String} (h : k.Ended p ns r) :
    ∃ ok : Bool, (ok ↔ r.1 = .ok ()) ∧ k.Turns (!ok) p r.2 ∧
      (ok → ∀ n ∈ ns, k.Settled r.2 n) ∧ (ok = false → k.Stops p) := by
  by_cases hr : r.1 = .ok ()
  · exact ⟨true, by simp [hr], h.turns false fun hne => absurd hr hne, fun _ => h.settled hr, nofun⟩
  · exact ⟨false, by simp [hr], h.turns true fun _ => rfl, nofun, fun _ => h.stops hr⟩

end Pointer

end SinkTrace
