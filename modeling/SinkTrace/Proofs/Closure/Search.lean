import SinkTrace.Proofs.Closure.Paths

/-!
# The search for a closure

Both closures are computed by a search of one form. A visit to a definition begins by entering it,
goes through what is fresh in its pointer and then through what is left of its old closure, and ends
by storing what it found. `Search` says so without fuel, for both kinds of pointers and for the
first and the later computations at once; `search_visit` says that the recursive functions are such
searches.
-/

namespace SinkTrace

open Definitions Table

variable {r : Names}

namespace Pointer

/-! ### The steps of a visit -/

def calm : Pointer → Definition → Definition
  | names, d => { d with change := d.change.dropNames }
  | taints, d => { d with change := d.change.dropTaints }

def emptied : Pointer → Definition → Definition
  | names, d => { d with addedNames := {} }
  | taints, d => { d with addedTaints := {} }

def enter : Pointer → Pass → String → Names → Pass
  | names => Pass.enterNames
  | taints => Pass.enterTaints

def clear : Pointer → Pass → String → Pass
  | names => Pass.clearNames
  | taints => Pass.clearTaints

def store : Pointer → Pass → String → Names → Pass
  | names => Pass.storeNames
  | taints => Pass.storeTaints

/-- What a search in a definition starts with. -/
def start (k : Pointer) (d : Definition) : Names := if (k.pointer d).isEmpty then [d.ns] else []

/-- Whether a set can be gone through to its end: a literal stops the search for marks. -/
def Readable : Pointer → PointSet → Prop
  | names, _ => True
  | taints, s => s.scalars = [] ∨ ∃ m ∈ s.names, isSinkMark m = true

def self : Pointer → String → Option String
  | names, _ => none
  | taints, ns => some ns

/-- What a visit goes through first: the whole pointer, or the additions in a later computation. -/
def fresh (k : Pointer) (p : Pass) (d : Definition) : PointSet :=
  if p.affected.isEmpty then k.pointer d else k.added d

def held (k : Pointer) (p : Pass) (d : Definition) : Names :=
  if (k.closure p.defs d.ns).isEmpty then k.start d else k.closure p.defs d.ns

def rest (k : Pointer) (p : Pass) (d : Definition) : Names :=
  if p.affected.isEmpty then [] else Names.diff (k.held p d) (k.added d).names

def settle (k : Pointer) (p : Pass) (ns : String) : Pass :=
  if p.affected.isEmpty then p else k.clear p ns

end Pointer

/-- What a search has to do: visit a namespace, or follow names and add to what was found. -/
inductive Task where
  | visit (ns : String)
  | follow (self : Option String) (names found : Names)

/-- `Search k p t o q`: from `p`, the task `t` has the outcome `o` and leaves `q`. -/
inductive Search (k : Pointer) : Pass → Task → Option Names → Pass → Prop where
  | absent {p : Pass} {ns : String} (hd : p.defs.get? ns = none) :
      Search k p (.visit ns) (some []) p
  | known {p : Pass} {ns : String} {d : Definition} {xs : Names} (hd : p.defs.get? ns = some d)
      (hk : (k.cache p.defs).get? ns = some xs) (hc : k.changed d = false) :
      Search k p (.visit ns) (some xs) p
  | close {p p₁ p₂ : Pass} {ns : String} {d : Definition} {found result : Names}
      (hd : p.defs.get? ns = some d)
      (ho : (k.cache p.defs).get? ns = none ∨ k.changed d = true)
      (hf : Search k (k.enter p ns (k.start d)) (.follow none (k.fresh p d).names (k.start d))
        (some found) p₁)
      (hr : k.Readable (k.fresh p d))
      (hs : Search k (k.settle p₁ ns) (.follow (k.self ns) (k.rest p d) found) (some result) p₂) :
      Search k p (.visit ns) (some result) (k.store p₂ ns result)
  /-- The fresh part cannot be gone through. -/
  | stopFresh {p p₁ : Pass} {ns : String} {d : Definition} {o : Option Names}
      (hd : p.defs.get? ns = some d)
      (ho : (k.cache p.defs).get? ns = none ∨ k.changed d = true)
      (hf : Search k (k.enter p ns (k.start d)) (.follow none (k.fresh p d).names (k.start d)) o p₁)
      (hr : o = none ∨ ¬ k.Readable (k.fresh p d)) : Search k p (.visit ns) none p₁
  /-- The rest cannot be gone through. -/
  | stopRest {p p₁ p₂ : Pass} {ns : String} {d : Definition} {found : Names}
      (hd : p.defs.get? ns = some d)
      (ho : (k.cache p.defs).get? ns = none ∨ k.changed d = true)
      (hf : Search k (k.enter p ns (k.start d)) (.follow none (k.fresh p d).names (k.start d))
        (some found) p₁)
      (hs : Search k (k.settle p₁ ns) (.follow (k.self ns) (k.rest p d) found) none p₂) :
      Search k p (.visit ns) none p₂
  | nil {p : Pass} {self : Option String} {acc : Names} :
      Search k p (.follow self [] acc) (some acc) p
  /-- A mark takes the place of all that was found. -/
  | mark {p : Pass} {self : Option String} {n : String} {ns acc : Names} (hn : k.isMark n = true) :
      Search k p (.follow self (n :: ns) acc) (some [n]) p
  | skip {p q : Pass} {self : Option String} {n : String} {ns acc : Names} {o : Option Names}
      (hn : k.isMark n = false)
      (h : p.defs.contains n = false ∨ p.affected ≠ [] ∧ (n ∈ acc ∨ self = some n))
      (hs : Search k p (.follow self ns acc) o q) : Search k p (.follow self (n :: ns) acc) o q
  | step {p p₁ q : Pass} {self : Option String} {n : String} {ns acc items : Names}
      {o : Option Names} (hn : k.isMark n = false) (hd : p.defs.contains n = true)
      (hm : p.affected = [] ∨ n ∉ acc ∧ self ≠ some n)
      (hv : Search k p (.visit n) (some items) p₁)
      (hs : Search k p₁ (.follow self ns (acc.union (if items.isEmpty then [n] else items))) o q) :
      Search k p (.follow self (n :: ns) acc) o q
  | stop {p q : Pass} {self : Option String} {n : String} {ns acc : Names}
      (hn : k.isMark n = false) (hd : p.defs.contains n = true)
      (hm : p.affected = [] ∨ n ∉ acc ∧ self ≠ some n)
      (hv : Search k p (.visit n) none q) : Search k p (.follow self (n :: ns) acc) none q

namespace Pointer

variable {k : Pointer} {d e : Definition} {p p₁ p₂ q : Pass} {s : Names}

/-! ### What the steps change -/

lemma get?_enter (p : Pass) (ns m : String) (s : Names) : (k.enter p ns s).defs.get? m =
      if m = ns then (p.defs.get? m).map k.calm else p.defs.get? m := by
  cases k <;> exact get?_adjustAt

lemma cache_enter (p : Pass) (ns m : String) (s : Names) : (k.cache (k.enter p ns s).defs).get? m =
      if m = ns ∧ k.closure p.defs ns = [] then some s else (k.cache p.defs).get? m := by
  have h : ∀ t : NameTable, (if (t.getD ns []).isEmpty then t.set ns s else t).get? m =
        if m = ns ∧ t.getD ns [] = [] then some s else t.get? m := by
    intro t
    by_cases he : t.getD ns [] = []
    · simp only [he, List.isEmpty_nil, if_true, and_true, get?_set]
    · simp only [he, List.isEmpty_iff, if_false, and_false]
  cases k with
  | names => exact h p.defs.closure
  | taints => exact h p.defs.taints

@[simp] lemma visited_enter (p : Pass) (ns : String) (s : Names) :
    (k.enter p ns s).visited = p.visited.insertEnd ns := by
  cases k <;> rfl

lemma mem_visited_enter {ns m : String} : m ∈ (k.enter p ns s).visited ↔ m = ns ∨
    m ∈ p.visited := by
  rw [visited_enter, List.mem_insertEnd_iff]

@[simp] lemma affected_enter (p : Pass) (ns : String) (s : Names) :
    (k.enter p ns s).affected = p.affected := by
  cases k <;> rfl

@[simp] lemma keys_enter (p : Pass) (ns : String) (s : Names) :
    (k.enter p ns s).defs.current.keys = p.defs.current.keys := by
  cases k <;> exact keys_modify p.defs.current ns _

lemma get?_settle (p : Pass) (ns m : String) : (k.settle p ns).defs.get? m =
      if m = ns ∧ p.affected ≠ [] then (p.defs.get? m).map k.emptied else p.defs.get? m := by
  unfold settle
  by_cases ha : p.affected = []
  · simp [ha]
  · simp only [ha, List.isEmpty_iff, if_false, ne_eq, not_false_eq_true, and_true]
    cases k <;> exact get?_adjustAt

@[simp] lemma cache_settle {ns : String} : k.cache (k.settle p ns).defs = k.cache p.defs := by
  unfold settle
  split_ifs <;> cases k <;> rfl

@[simp] lemma visited_settle (p : Pass) (ns : String) : (k.settle p ns).visited = p.visited := by
  unfold settle
  split_ifs <;> cases k <;> rfl

@[simp] lemma affected_settle (p : Pass) (ns : String) : (k.settle p ns).affected = p.affected := by
  unfold settle
  split_ifs <;> cases k <;> rfl

@[simp] lemma keys_settle (p : Pass) (ns : String) :
    (k.settle p ns).defs.current.keys = p.defs.current.keys := by
  unfold settle
  split_ifs
  · rfl
  · cases k <;> exact keys_modify p.defs.current ns _

@[simp] lemma current_store (p : Pass) (ns : String) (r : Names) :
    (k.store p ns r).defs.current = p.defs.current := by
  cases k <;> rfl

lemma get?_store (p : Pass) (ns m : String) (r : Names) :
    (k.store p ns r).defs.get? m = p.defs.get? m := by
  cases k <;> rfl

lemma cache_store (p : Pass) (ns m : String) (r : Names) : (k.cache (k.store p ns r).defs).get? m =
      if m = ns then some r else (k.cache p.defs).get? m := by
  cases k <;> exact get?_set

@[simp] lemma visited_store (p : Pass) (ns : String) (r : Names) :
    (k.store p ns r).visited = p.visited := by
  cases k <;> rfl

@[simp] lemma affected_store (p : Pass) (ns : String) (r : Names) :
    (k.store p ns r).affected = p.affected := by
  cases k <;> rfl

/-! ### First and later computations -/

lemma fresh_of_first (ha : p.affected = []) (d : Definition) : k.fresh p d = k.pointer d := by
  simp [fresh, ha]

lemma fresh_of_later (ha : p.affected ≠ []) (d : Definition) : k.fresh p d = k.added d := by
  simp [fresh, ha]

lemma rest_of_first (ha : p.affected = []) (d : Definition) : k.rest p d = [] := by simp [rest, ha]

lemma settle_of_first (ha : p.affected = []) (ns : String) : k.settle p ns = p := by
  simp [settle, ha]

lemma closure_enter (p : Pass) (d : Definition) :
    k.closure (k.enter p d.ns (k.start d)).defs d.ns = k.held p d := by
  unfold closure held getD
  rw [cache_enter]
  by_cases he : k.closure p.defs d.ns = []
  · simp [he]
  · have hne : ((k.cache p.defs).get? d.ns).getD [] ≠ [] := he
    simp [hne, closure, getD]

lemma rest_of_later (ha : p.affected ≠ []) (d : Definition) : k.rest p d =
      Names.diff (k.closure (k.enter p d.ns (k.start d)).defs d.ns) (k.added d).names := by
  rw [closure_enter]
  simp [rest, ha]

/-! ### What a search leaves alone -/

def still (k : Pointer) (d : Definition) : Definition := k.emptied (k.calm d)

def outside : Pointer → Definitions → Definitions
  | names, ds => { ds with current := {}, closure := {}, reverseClosure := {} }
  | taints, ds => { ds with current := {}, taints := {}, reverseTaints := {} }

/-- `e` is `d` with less noted down. -/
structure Fades (k : Pointer) (d e : Definition) : Prop where
  still : k.still e = k.still d
  added : k.added e = k.added d ∨ k.added e = {}
  changed : k.changed e = true → k.changed d = true

lemma fades_refl (k : Pointer) (d : Definition) : k.Fades d d := ⟨rfl, .inl rfl, id⟩

lemma Fades.trans {a b c : Definition} (h : k.Fades a b) (h' : k.Fades b c) : k.Fades a c where
  still := h'.still.trans h.still
  added := by
    rcases h'.added with hbc | hbc
    · rw [hbc]
      exact h.added
    · exact .inr hbc
  changed hc := h.changed (h'.changed hc)

lemma fades_calm (k : Pointer) (d : Definition) : k.Fades d (k.calm d) := by
  rcases d with ⟨ns, rev, kind, mod, name, lits, taints, change, an, at', decs⟩
  cases k <;> cases change <;> exact ⟨rfl, .inl rfl, fun h => by cases h⟩

lemma fades_emptied (k : Pointer) (d : Definition) : k.Fades d (k.emptied d) := by
  cases k <;> exact ⟨rfl, .inr rfl, id⟩

@[simp] lemma changed_calm (k : Pointer) : k.changed (k.calm d) = false := by
  cases k
  · exact Change.hasNames_dropNames
  · exact Change.hasTaints_dropTaints

lemma Fades.unchanged (h : k.Fades d e) (hd : k.changed d = false) : k.changed e = false := by
  rw [Bool.eq_false_iff] at hd ⊢
  exact fun he => hd (h.changed he)

lemma Fades.ns (h : k.Fades d e) : e.ns = d.ns := by
  have := congrArg Definition.ns h.still
  cases k <;> exact this

lemma Fades.pointer (h : k.Fades d e) (j : Pointer) : j.pointer e = j.pointer d := by
  have := congrArg (Pointer.pointer j) h.still
  cases k <;> cases j <;> exact this

/-- `q` comes after `p` in a search: what was visited keeps its closure. -/
structure Frame (k : Pointer) (p q : Pass) : Prop where
  affected : q.affected = p.affected
  keys : q.defs.current.keys = p.defs.current.keys
  visited : ∀ n ∈ p.visited, n ∈ q.visited
  seen : ∀ n ∈ p.visited, (k.cache q.defs).get? n = (k.cache p.defs).get? n
  unseen : ∀ n, n ∉ q.visited →
    q.defs.get? n = p.defs.get? n ∧ (k.cache q.defs).get? n = (k.cache p.defs).get? n
  fades : ∀ n e, q.defs.get? n = some e → ∃ d, p.defs.get? n = some d ∧ k.Fades d e
  outside : k.outside q.defs = k.outside p.defs

lemma frame_refl (k : Pointer) : k.Frame p p where
  affected := rfl
  keys := rfl
  visited _ hn := hn
  seen _ _ := rfl
  unseen _ _ := ⟨rfl, rfl⟩
  fades _ e he := ⟨e, he, k.fades_refl e⟩
  outside := rfl

lemma Frame.trans {r : Pass} (h : k.Frame p q) (h' : k.Frame q r) : k.Frame p r where
  affected := h'.affected.trans h.affected
  keys := h'.keys.trans h.keys
  visited n hn := h'.visited n (h.visited n hn)
  seen n hn := (h'.seen n (h.visited n hn)).trans (h.seen n hn)
  unseen n hn := by
    obtain ⟨hget, hcache⟩ := h'.unseen n hn
    obtain ⟨hget', hcache'⟩ := h.unseen n fun hq => hn (h'.visited n hq)
    exact ⟨hget.trans hget', hcache.trans hcache'⟩
  fades n f hf := by
    obtain ⟨e, he, hef⟩ := h'.fades n f hf
    obtain ⟨d, hd, hde⟩ := h.fades n e he
    exact ⟨d, hd, hde.trans hef⟩
  outside := h'.outside.trans h.outside

lemma Frame.contains (h : k.Frame p q) (n : String) : q.defs.contains n = p.defs.contains n := by
  rw [Bool.eq_iff_iff, Definitions.contains, Definitions.contains, ← mem_keys_iff,
    ← mem_keys_iff, h.keys]

variable {ns : String}

lemma frame_enter (hns : ns ∉ p.visited) : k.Frame p (k.enter p ns s) where
  affected := affected_enter p ns s
  keys := keys_enter p ns s
  visited n hn := mem_visited_enter.mpr (.inr hn)
  seen n hn := by
    rw [cache_enter, if_neg]
    rintro ⟨rfl, -⟩
    exact hns hn
  unseen n hn := by
    rw [mem_visited_enter, not_or] at hn
    rw [get?_enter, cache_enter, if_neg hn.1, if_neg fun h => hn.1 h.1]
    exact ⟨rfl, rfl⟩
  fades n e he := by
    rw [get?_enter] at he
    split_ifs at he
    · obtain ⟨d, hd, rfl⟩ := Option.map_eq_some_iff.mp he
      exact ⟨d, hd, k.fades_calm d⟩
    · exact ⟨e, he, k.fades_refl e⟩
  outside := by cases k <;> rfl

lemma frame_settle (hns : ns ∈ p.visited) : k.Frame p (k.settle p ns) where
  affected := affected_settle p ns
  keys := keys_settle p ns
  visited n hn := by rwa [visited_settle]
  seen n hn := by rw [cache_settle]
  unseen n hn := by
    rw [visited_settle] at hn
    rw [get?_settle, cache_settle, if_neg]
    · exact ⟨rfl, rfl⟩
    · rintro ⟨rfl, -⟩
      exact hn hns
  fades n e he := by
    rw [get?_settle] at he
    split_ifs at he
    · obtain ⟨d, hd, rfl⟩ := Option.map_eq_some_iff.mp he
      exact ⟨d, hd, k.fades_emptied d⟩
    · exact ⟨e, he, k.fades_refl e⟩
  outside := by
    unfold settle
    split_ifs <;> cases k <;> rfl

lemma Frame.store (h : k.Frame p q) (hp : ns ∉ p.visited) (hq : ns ∈ q.visited) :
    k.Frame p (k.store q ns r) where
  affected := by rw [affected_store, h.affected]
  keys := by rw [current_store, h.keys]
  visited n hn := by
    rw [visited_store]
    exact h.visited n hn
  seen n hn := by
    rw [cache_store, if_neg]
    · exact h.seen n hn
    · rintro rfl
      exact hp hn
  unseen n hn := by
    rw [visited_store] at hn
    rw [get?_store, cache_store, if_neg]
    · exact h.unseen n hn
    · rintro rfl
      exact hn hq
  fades n e he := by
    rw [get?_store] at he
    exact h.fades n e he
  outside := by
    rw [← h.outside]
    cases k <;> rfl

/-! ### Searches in good order -/

/-- Every definition is at its own namespace; what was visited has a closure and counts as
unchanged. -/
structure Sane (k : Pointer) (p : Pass) : Prop where
  keyed : ∀ n d, p.defs.get? n = some d → d.ns = n
  cached : ∀ n ∈ p.visited, ∃ xs, (k.cache p.defs).get? n = some xs
  calm : ∀ n ∈ p.visited, ∀ d, p.defs.get? n = some d → k.changed d = false

lemma Sane.not_visited (h : k.Sane p) (hd : p.defs.get? ns = some d)
    (ho : (k.cache p.defs).get? ns = none ∨ k.changed d) : ns ∉ p.visited := by
  intro hv
  rcases ho with ho | ho
  · obtain ⟨xs, hxs⟩ := h.cached ns hv
    rw [hxs] at ho
    cases ho
  · rw [h.calm ns hv d hd] at ho
    cases ho

lemma Frame.keyed (h : k.Frame p q) (hp : ∀ n d, p.defs.get? n = some d → d.ns = n) :
    ∀ n d, q.defs.get? n = some d → d.ns = n := by
  intro n e he
  obtain ⟨d, hd, hf⟩ := h.fades n e he
  rw [hf.ns]
  exact hp n d hd

lemma sane_enter (h : k.Sane p) (hns : ns ∉ p.visited) : k.Sane (k.enter p ns s) where
  keyed := (frame_enter hns).keyed h.keyed
  cached n hn := by
    rw [mem_visited_enter] at hn
    rw [cache_enter]
    split_ifs with hc
    · exact ⟨s, rfl⟩
    · rcases hn with rfl | hn
      · -- a closure that is not empty was there before
        cases hget : (k.cache p.defs).get? n with
        | some xs => exact ⟨xs, rfl⟩
        | none => exact absurd ⟨rfl, closure_of_none hget⟩ hc
      · exact h.cached n hn
  calm n hn d hd := by
    rw [mem_visited_enter] at hn
    rw [get?_enter] at hd
    split_ifs at hd with hne
    · obtain ⟨e, -, rfl⟩ := Option.map_eq_some_iff.mp hd
      exact k.changed_calm
    · exact h.calm n (hn.resolve_left hne) d hd

lemma Frame.sane (h : k.Frame p q) (hv : ∀ n ∈ q.visited, n ∈ p.visited) (hp : k.Sane p) :
    k.Sane q where
  keyed := h.keyed hp.keyed
  cached n hn := by
    rw [h.seen n (hv n hn)]
    exact hp.cached n (hv n hn)
  calm n hn e he := by
    obtain ⟨d, hd, hf⟩ := h.fades n e he
    exact hf.unchanged (hp.calm n (hv n hn) d hd)

lemma sane_settle (h : k.Sane p) (hns : ns ∈ p.visited) : k.Sane (k.settle p ns) :=
  (frame_settle hns).sane (fun n hn => by rwa [visited_settle] at hn) h

lemma sane_store (h : k.Sane p) : k.Sane (k.store p ns r) where
  keyed n d hd := by
    rw [get?_store] at hd
    exact h.keyed n d hd
  cached n hn := by
    rw [visited_store] at hn
    rw [cache_store]
    split_ifs
    · exact ⟨r, rfl⟩
    · exact h.cached n hn
  calm n hn d hd := by
    rw [visited_store] at hn
    rw [get?_store] at hd
    exact h.calm n hn d hd

/-- What is known about a visit after its fresh part, and about the rest of it. -/
structure Opening (k : Pointer) (p : Pass) (ns : String) (d : Definition) (p₁ : Pass) :
    Prop where
  not_visited : ns ∉ p.visited
  sane_enter : k.Sane (k.enter p ns (k.start d))
  sane : k.Sane p₁
  frame : k.Frame (k.enter p ns (k.start d)) p₁
  visited : ns ∈ p₁.visited
  sane_settle : k.Sane (k.settle p₁ ns)
  frame_settle : k.Frame p₁ (k.settle p₁ ns)

lemma Sane.opening (hp : k.Sane p) (hd : p.defs.get? ns = some d)
    (ho : (k.cache p.defs).get? ns = none ∨ k.changed d)
    (hf : k.Sane (k.enter p ns (k.start d)) → k.Sane p₁ ∧ k.Frame (k.enter p ns (k.start d)) p₁) :
    k.Opening p ns d p₁ := by
  have hns := hp.not_visited hd ho
  have henter : k.Sane (k.enter p ns (k.start d)) := sane_enter hp hns
  obtain ⟨hp₁, hfr₁⟩ := hf henter
  have hin : ns ∈ p₁.visited := by
    apply hfr₁.visited
    exact mem_visited_enter.mpr (.inl rfl)
  exact ⟨hns, henter, hp₁, hfr₁, hin, Pointer.sane_settle hp₁ hin, Pointer.frame_settle hin⟩

section Opening

variable (h : k.Opening p ns d p₁)

include h

lemma Opening.frame_enter :
    k.Frame p (k.enter p ns (k.start d)) := Pointer.frame_enter h.not_visited

lemma Opening.frame_fresh : k.Frame p p₁ :=
  h.frame_enter.trans h.frame

lemma Opening.frame_rest (hs : k.Frame (k.settle p₁ ns) p₂) :
    k.Frame p p₂ := h.frame_fresh.trans (h.frame_settle.trans hs)

lemma Opening.visited_rest (hs : k.Frame (k.settle p₁ ns) p₂) :
    ns ∈ p₂.visited := hs.visited ns (by rw [visited_settle]; exact h.visited)

end Opening

end Pointer

namespace Search

open Pointer

variable {k : Pointer} {p q : Pass} {t : Task} {o : Option Names}

/-- A search leaves good order and respects what was visited before. -/
lemma sane_frame (h : Search k p t o q) (hp : k.Sane p) : k.Sane q ∧ k.Frame p q := by
  induction h with
  | absent hd => exact ⟨hp, k.frame_refl⟩
  | known hd hk hc => exact ⟨hp, k.frame_refl⟩
  | close hd ho hf hr hs ihf ihs =>
    have hop := hp.opening hd ho ihf
    obtain ⟨hp₂, hfr₂⟩ := ihs hop.sane_settle
    exact ⟨sane_store hp₂, (hop.frame_rest hfr₂).store hop.not_visited (hop.visited_rest hfr₂)⟩
  | stopFresh hd ho hf hr ihf =>
    have hop := hp.opening hd ho ihf
    exact ⟨hop.sane, hop.frame_fresh⟩
  | stopRest hd ho hf hs ihf ihs =>
    have hop := hp.opening hd ho ihf
    obtain ⟨hp₂, hfr₂⟩ := ihs hop.sane_settle
    exact ⟨hp₂, hop.frame_rest hfr₂⟩
  | nil => exact ⟨hp, k.frame_refl⟩
  | mark hn => exact ⟨hp, k.frame_refl⟩
  | skip hn h hs ih => exact ih hp
  | step hn hd hm hv hs ihv ihs =>
    obtain ⟨hp₁, hfr₁⟩ := ihv hp
    obtain ⟨hp₂, hfr₂⟩ := ihs hp₁
    exact ⟨hp₂, hfr₁.trans hfr₂⟩
  | stop hn hd hm hv ih => exact ih hp

lemma visit_result {ns : String} (h : Search k p (.visit ns) (some r) q) (hp : k.Sane p)
    {e : Definition} (he : q.defs.get? ns = some e) :
    (k.cache q.defs).get? ns = some r ∧ k.changed e = false := by
  cases h with
  | absent hd =>
    rw [hd] at he
    cases he
  | known hd hk hc =>
    obtain rfl := Option.some.inj (hd.symm.trans he)
    exact ⟨hk, hc⟩
  | close hd ho hf hr hs =>
    have hop := hp.opening hd ho hf.sane_frame
    obtain ⟨hp₂, hfr₂⟩ := hs.sane_frame hop.sane_settle
    rw [get?_store] at he
    rw [cache_store, if_pos rfl]
    exact ⟨rfl, hp₂.calm ns (hop.visited_rest hfr₂) e he⟩

end Search

end SinkTrace
