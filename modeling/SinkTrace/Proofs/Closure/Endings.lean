import SinkTrace.Proofs.Closure.Updates

/-!
# The order in which visits end

In the first computation every definition is visited once, and its visit takes what the visits that
have ended before it have found. Of a definition whose visit is still going on it takes the
namespace only. So the closures follow from the pointers and from the order in which the visits end,
with cycles too, and what such a closure lacks is what lies behind an edge that closes a cycle.
-/

namespace SinkTrace

open Definitions Pointer Relation List

variable {d : Definition} {base ds : Definitions} {a b m x : String} {done : Prop} {p q : Pass}
  {ended : List String}

namespace Pointer

variable {ds' : Definitions} {r : Pass} {new : List String} {ns : String}

/-! ### Before and after -/

def Earlier (ended : List String) (m b : String) : Prop := ended.idxOf m < ended.idxOf b

instance (ended : List String) (m b : String) : Decidable (Earlier ended m b) :=
  inferInstanceAs (Decidable (_ < _))

lemma Earlier.mem (h : Earlier ended m b) : m ∈ ended :=
  idxOf_lt_length_iff.mp (Nat.lt_of_lt_of_le h idxOf_le_length)

lemma earlier_append (hb : b ∈ ended) : Earlier (ended ++ new) m b ↔ Earlier ended m b := by
  have hlt := idxOf_lt_length_of_mem hb
  by_cases hm : m ∈ ended
  · simp [Earlier, idxOf_append, hb, hm]
  · have hlen := idxOf_eq_length hm
    simp only [Earlier, idxOf_append, hb, hm, if_true, if_false]
    omega

lemma earlier_last (ha : a ∉ ended) : Earlier (ended ++ [a]) m a ↔ m ∈ ended := by
  by_cases hm : m ∈ ended
  · have hlt := idxOf_lt_length_of_mem hm
    simp only [Earlier, idxOf_append, ha, hm, if_true, if_false, idxOf_cons_self, iff_true]
    omega
  · simp [Earlier, idxOf_append, ha, hm]

/-! ### What a name adds to a closure -/

/-- The closure of `n` as a part of another one: an empty closure stands for `n` itself. -/
def share (xs : Names) (n : String) : Names := if xs.isEmpty then [n] else xs

/-- What `m` adds to a closure: its share if its visit is `done`, and itself while that goes on. -/
def part (ds : Definitions) (done : Prop) [Decidable done] (m : String) : Names :=
  if done then share (names.closure ds m) m else [m]

/-- The closure of `b` is made of what its pointer adds. -/
def Formed (base ds : Definitions) (ended : List String) (b : String) : Prop :=
  ∀ d, ds.get? b = some d → ∀ x, x ∈ names.closure ds b ↔
    x ∈ names.start d ∨ ∃ m, names.Edge base b m ∧ x ∈ part ds (Earlier ended m b) m

/-- The state of a first computation in which the visits in `ended` have ended, in this order. -/
structure Endings (base : Definitions) (p : Pass) (ended : List String) : Prop where
  first : p.affected = []
  defined : ∀ b ∈ p.visited, base.contains b = true
  visited : ∀ b ∈ ended, b ∈ p.visited
  unvisited : ∀ b, b ∉ p.visited → (names.cache p.defs).get? b = none
  busy : ∀ b ∈ p.visited, b ∉ ended → ∀ d, p.defs.get? b = some d →
    names.closure p.defs b = names.start d
  formed : ∀ b ∈ ended, Formed base p.defs ended b
  back : ∀ b ∈ ended, ∀ m, names.Edge base b m →
    Earlier ended m b ∨ ReflTransGen (names.Edge base) m b

/-- `new` lists what was visited between `p` and `q`. -/
def Since (p q : Pass) (new : List String) : Prop := ∀ b, b ∈ new ↔ b ∈ q.visited ∧ b ∉ p.visited

lemma since_nil (p : Pass) : Since p p [] := by
  intro b
  simp

lemma Since.trans {new' : List String} (h : Since p q new) (h' : Since q r new')
    (hpq : ∀ b ∈ p.visited, b ∈ q.visited) (hqr : ∀ b ∈ q.visited, b ∈ r.visited) :
    Since p r (new ++ new') := by
  intro b
  rw [mem_append, h b, h' b]
  constructor
  · rintro (⟨hq, hp⟩ | ⟨hr, hq⟩)
    · exact ⟨hqr b hq, hp⟩
    · exact ⟨hr, fun hp => hq (hpq b hp)⟩
  · rintro ⟨hr, hp⟩
    by_cases hq : b ∈ q.visited
    · exact .inl ⟨hq, hp⟩
    · exact .inr ⟨hr, hq⟩

lemma Since.store {s found : Names} (h : Since (names.enter p ns s) q new) (hp : ns ∉ p.visited)
    (hq : ns ∈ q.visited) : Since p (names.store q ns found) (new ++ [ns]) := by
  intro b
  rw [mem_append, mem_singleton, h b, mem_visited_enter, not_or, visited_store]
  constructor
  · rintro (⟨hb, -, hnb⟩ | rfl)
    · exact ⟨hb, hnb⟩
    · exact ⟨hq, hp⟩
  · rintro ⟨hb, hnb⟩
    by_cases hbn : b = ns
    · exact .inr hbn
    · exact .inl ⟨hb, hbn, hnb⟩

lemma Settles.start {e : Definition} (h : Settles d e) : names.start e = names.start d := by
  rw [Pointer.start, Pointer.start, h.pointer, h.ns]

lemma part_congr [Decidable done] (hc : done → (names.cache ds').get? m = (names.cache ds).get? m) :
    part ds' done m = part ds done m := by
  unfold part
  split_ifs with hdone
  · rw [closure_congr (hc hdone)]
  · rfl

/-- What is visited later adds nothing to the part of a namespace that was visited before. -/
lemma Since.part_eq (h : Since p q new) (hm : m ∈ p.visited)
    (hc : (names.cache q.defs).get? m = (names.cache p.defs).get? m) :
    part q.defs (m ∈ ended ++ new) m = part p.defs (m ∈ ended) m := by
  have hlate : m ∈ ended ++ new ↔ m ∈ ended := by
    rw [mem_append, h m, or_iff_left]
    exact fun h => h.2 hm
  simp only [hlate]
  exact part_congr fun _ => hc

lemma Formed.congr (h : Formed base ds ended b) (hb : b ∈ ended)
    (hc : ∀ b ∈ ended, (names.cache ds').get? b = (names.cache ds).get? b)
    (hd : ∀ e, ds'.get? b = some e → ∃ d, ds.get? b = some d ∧ names.start e = names.start d) :
    Formed base ds' ended b := by
  intro e he x
  obtain ⟨d, hget, hstart⟩ := hd e he
  rw [closure_congr (hc b hb), hstart, h d hget x]
  refine or_congr_right (exists_congr fun m => and_congr_right fun _ => ?_)
  rw [part_congr fun hlt => hc m hlt.mem]

lemma Formed.append (h : Formed base ds ended b) (hb : b ∈ ended) :
    Formed base ds (ended ++ new) b := by
  intro d hd x
  rw [h d hd x]
  simp only [part, earlier_append hb]

lemma Endings.enter (h : Endings base p ended) (hd : p.defs.get? ns = some d)
    (hdef : base.contains ns) (hns : ns ∉ p.visited) :
    Endings base (names.enter p ns (names.start d)) ended := by
  have hfr : names.Frame p (names.enter p ns (names.start d)) := frame_enter hns
  refine ⟨by rw [affected_enter, h.first], ?_, fun b hb => hfr.visited b (h.visited b hb), ?_, ?_,
    ?_, h.back⟩
  · intro b hb
    rcases mem_visited_enter.mp hb with rfl | hb
    · exact hdef
    · exact h.defined b hb
  · intro b hb
    rw [(hfr.unseen b hb).2]
    rw [mem_visited_enter, not_or] at hb
    exact h.unvisited b hb.2
  · intro b hb hne e he
    obtain ⟨f, hf, hfades⟩ := hfr.fades b e he
    rw [hfades.settles.start]
    rcases mem_visited_enter.mp hb with rfl | hb
    · obtain rfl := Option.some.inj (hd.symm.trans hf)
      refine closure_of_cache ?_
      rw [cache_enter, if_pos ⟨rfl, closure_of_none (h.unvisited b hns)⟩]
    · rw [closure_congr (hfr.seen b hb)]
      exact h.busy b hb hne f hf
  · intro b hb
    refine (h.formed b hb).congr hb (fun m hm => hfr.seen m (h.visited m hm)) fun e he => ?_
    obtain ⟨f, hf, hfades⟩ := hfr.fades b e he
    exact ⟨f, hf, hfades.settles.start⟩

lemma Endings.store (h : Endings base p ended) {result : Names} (hvis : ns ∈ p.visited)
    (hns : ns ∉ ended) (hresult : ∀ d, p.defs.get? ns = some d → ∀ x, x ∈ result ↔
      x ∈ names.start d ∨
      ∃ m, names.Edge base ns m ∧ x ∈ part p.defs (m ∈ ended) m)
    (hback : ∀ m, names.Edge base ns m → m ∈ ended ∨ ReflTransGen (names.Edge base) m ns) :
    Endings base (names.store p ns result) (ended ++ [ns]) := by
  have hcache : ∀ b ∈ ended, (names.cache (names.store p ns result).defs).get? b =
      (names.cache p.defs).get? b := by
    intro b hb
    rw [cache_store, if_neg (ne_of_mem_of_not_mem hb hns)]
  refine ⟨by rw [affected_store, h.first], fun b hb => h.defined b (by rwa [visited_store] at hb),
    ?_, ?_, ?_, ?_, ?_⟩
  · intro b hb
    rw [visited_store]
    rcases mem_append.mp hb with hb | hb
    · exact h.visited b hb
    · exact mem_singleton.mp hb ▸ hvis
  · intro b hb
    rw [visited_store] at hb
    rw [cache_store, if_neg (ne_of_mem_of_not_mem hvis hb).symm]
    exact h.unvisited b hb
  · intro b hb hne d hd
    rw [mem_append, not_or, mem_singleton] at hne
    rw [visited_store] at hb
    rw [get?_store] at hd
    rw [← h.busy b hb hne.1 d hd]
    exact closure_congr (by rw [cache_store, if_neg hne.2])
  · intro b hb
    by_cases hbn : b = ns
    · subst hbn
      intro d hd x
      rw [get?_store] at hd
      have hget : (names.cache (names.store p b result).defs).get? b = some result := by
        rw [cache_store, if_pos rfl]
      rw [closure_of_cache hget, hresult d hd x]
      refine or_congr_right (exists_congr fun m => and_congr_right fun _ => ?_)
      rw [← part_congr fun hm => hcache m hm]
      simp only [part, earlier_last hns]
    · have hb : b ∈ ended := by simpa [hbn] using hb
      refine Formed.append ?_ hb
      refine (h.formed b hb).congr hb hcache fun e he => ⟨e, ?_, rfl⟩
      rwa [get?_store] at he
  · intro b hb m hm
    by_cases hbn : b = ns
    · subst hbn
      rw [earlier_last hns]
      exact hback m hm
    · have hb : b ∈ ended := by simpa [hbn] using hb
      rw [earlier_append hb]
      exact h.back b hb m hm

lemma Ready.edge_iff (hp : names.Ready base p) (hd : p.defs.get? ns = some d) :
    m ∈ (names.pointer d).names ∧ base.contains m ↔ names.Edge base ns m := by
  constructor
  · rintro ⟨hm, hdef⟩
    obtain ⟨e, hget, hsub⟩ := hp.fits.grows ns d hd
    exact ⟨⟨e, hget, hsub m hm⟩, hdef⟩
  · rintro ⟨⟨e, hget, hm⟩, hdef⟩
    obtain ⟨d', hd', hsub⟩ := hp.back ns e hget
    obtain rfl := Option.some.inj (hd.symm.trans hd')
    exact ⟨hsub m hm, hdef⟩

lemma Endings.share_of_known {xs : Names} (h : Endings base p ended) (hp : names.Ready base p)
    (hd : p.defs.get? ns = some d) (hknown : (names.cache p.defs).get? ns = some xs)
    (hbusy : ∀ b ∈ p.visited, b ∉ ended → names.Reaches base b ns) :
    share xs ns = part p.defs (ns ∈ ended) ns := by
  have hvis : ns ∈ p.visited := by
    by_contra hv
    rw [h.unvisited ns hv] at hknown
    cases hknown
  by_cases hend : ns ∈ ended
  · rw [part, if_pos hend, closure_of_cache hknown]
  · -- its visit goes on, and it leads to itself
    have hself := hbusy ns hvis hend
    have hstart : names.start d = [] :=
      start_of_hits (c := fun _ => True) hp.back hd ⟨ns, trivial, hself⟩
    rw [part, if_neg hend, ← closure_of_cache hknown, h.busy ns hvis hend d hd, hstart]
    rfl

end Pointer

namespace Search

variable {t : Task} {o : Option Names}

/-- What a search does to the order of the visits. All that is busy leads to the visited one. -/
def Ends (base : Definitions) (p q : Pass) (ended : List String) (r : Names) : Task → Prop
  | .visit ns => (∀ b ∈ p.visited, b ∉ ended → names.Reaches base b ns) →
      ∃ new, Since p q new ∧ Endings base q (ended ++ new) ∧
        (base.contains ns = true → share r ns = part q.defs (ns ∈ ended ++ new) ns)
  | .follow _ ns acc => ∀ a, (∀ b ∈ p.visited, b ∉ ended → names.Under base b a) →
      (∀ n ∈ ns, base.contains n = true → names.Edge base a n) →
      ∃ new, Since p q new ∧ Endings base q (ended ++ new) ∧ (∀ x, x ∈ r ↔ x ∈ acc ∨
          ∃ m ∈ ns, base.contains m = true ∧ x ∈ part q.defs (m ∈ ended ++ new) m) ∧
        ∀ m ∈ ns, base.contains m = true → m ∈ q.visited

lemma visited_of_visit {n : String} {items : Names} (h : Search .names p (.visit n) (some items) q)
    (hp : names.Sane p) (hq : Endings base q ended) (hdef : p.defs.contains n) : n ∈ q.visited := by
  obtain ⟨e, hget⟩ := contains_iff.mp (((h.sane_frame hp).2.contains n).trans hdef)
  by_contra hv
  have hcache := (h.visit_result hp hget).1
  rw [hq.unvisited n hv] at hcache
  cases hcache

lemma ends (h : Search .names p t o q) (hp : names.Ready base p) :
    ∀ r, o = some r → ∀ ended, Endings base p ended → Ends base p q ended r t := by
  induction h with
  | absent hd =>
    intro r hr ended he _
    refine ⟨[], since_nil _, by rwa [append_nil], fun hdef => ?_⟩
    obtain ⟨d, hd'⟩ := contains_iff.mp ((hp.contains _).trans hdef)
    rw [hd] at hd'
    cases hd'
  | @known p ns d xs hd hknown hc =>
    intro r hr ended he hbusy
    cases hr
    refine ⟨[], since_nil _, by rwa [append_nil], fun hdef => ?_⟩
    rw [append_nil]
    exact he.share_of_known hp hd hknown hbusy
  | @close p p₁ p₂ ns d found result hd ho hf hr hs ihf ihs =>
    intro r heq ended he hbusy
    cases heq
    have hop := hp.sane.opening hd ho hf.sane_frame
    have hns := hop.not_visited
    have he₀ := he.enter hd (hp.fits.grows.contains (contains_of_get? hd)) hns
    -- nothing is left of an old closure
    have hp₁ : p₁.affected = [] := hop.frame_fresh.affected.trans he.first
    rw [rest_of_first he.first, settle_of_first hp₁] at hs
    cases hs
    rw [fresh_of_first he.first] at hf ihf
    obtain ⟨new, hsince, hends, hmem, hvisited⟩ := ihf (hp.enter hd hns) found rfl ended he₀ ns (by
        intro b hb hne
        rcases mem_visited_enter.mp hb with rfl | hb
        · exact .inl rfl
        · exact .inr (hbusy b hb hne))
      fun n hn hdef => (hp.edge_iff hd).mp ⟨hn, hdef⟩
    have hnew : ns ∉ ended ++ new := by
      rw [mem_append, not_or, hsince ns]
      refine ⟨fun hmem => hns (he.visited ns hmem), fun h => h.2 ?_⟩
      exact mem_visited_enter.mpr (.inl rfl)
    have hstore : Endings base (names.store p₁ ns found) (ended ++ new ++ [ns]) := by
      refine hends.store hop.visited hnew (fun e hget x => ?_) fun m hm => ?_
      · obtain ⟨f, hf', hfades⟩ := hop.frame_fresh.fades ns e hget
        obtain rfl := Option.some.inj (hd.symm.trans hf')
        rw [hmem x, hfades.settles.start]
        refine or_congr_right (exists_congr fun m => ?_)
        rw [← hp.edge_iff hd, and_assoc]
      · obtain ⟨hm, hdef⟩ := (hp.edge_iff hd).mpr hm
        by_cases hend : m ∈ ended ++ new
        · exact .inl hend
        · rw [mem_append, not_or, hsince m, not_and_not_right] at hend
          right
          rcases mem_visited_enter.mp (hend.2 (hvisited m hm hdef)) with rfl | hvis
          · exact .refl
          · exact (reaches_names_iff.mp (hbusy m hvis hend.1)).to_reflTransGen
    refine ⟨new ++ [ns], hsince.store hns hop.visited, by rwa [← append_assoc], fun _ => ?_⟩
    have hget : (names.cache (names.store p₁ ns found).defs).get? ns = some found := by
      rw [cache_store, if_pos rfl]
    rw [part, if_pos (by simp), closure_of_cache hget]
  | @nil p self acc =>
    intro r hr ended he a _ _
    cases hr
    exact ⟨[], since_nil p, by rwa [append_nil], by simp, nofun⟩
  | mark hn => cases hn
  | @skip p q self n ns acc o hn hskip hs ih =>
    intro r hr ended he a hbusy hedge
    have hnone : base.contains n = false := by
      rcases hskip with hnone | ⟨ha, -⟩
      · exact (hp.contains n).symm.trans hnone
      · exact absurd he.first ha
    obtain ⟨new, hsince, hends, hmem, hvis⟩ := ih hp r hr ended he a hbusy
      fun m hm => hedge m (mem_cons_of_mem n hm)
    refine ⟨new, hsince, hends, fun x => ?_, ?_⟩
    · simp [hmem x, hnone]
    · intro m hm hdef
      rcases mem_cons.mp hm with rfl | hm
      · rw [hnone] at hdef
        cases hdef
      · exact hvis m hm hdef
  | @step p p₁ q self n ns acc items o hn hdef hm hv hs ihv ihs =>
    intro r hr ended he a hbusy hedge
    have hfr := (hv.sane_frame hp.sane).2
    have hp₁ := hv.ready hp
    have hfr' := (hs.sane_frame hp₁.sane).2
    have hdef' : base.contains n := (hp.contains n).symm.trans hdef
    have han : names.Reaches base a n := by
      rw [reaches_names_iff]
      exact .single (hedge n mem_cons_self hdef')
    obtain ⟨new, hsince, hends, hitems⟩ := ihv hp items rfl ended he fun b hb hne => by
      rcases hbusy b hb hne with rfl | hba
      · exact han
      · exact hba.trans han
    obtain ⟨new', hsince', hends', hmem, hvis⟩ := ihs hp₁ r hr (ended ++ new) hends a (by
      intro b hb hne
      rw [mem_append, not_or, hsince b, not_and_not_right] at hne
      exact hbusy b (hne.2 hb) hne.1) fun m hm => hedge m (mem_cons_of_mem n hm)
    have hnvis := hv.visited_of_visit hp.sane hends hdef
    refine ⟨new ++ new', hsince.trans hsince' hfr.visited hfr'.visited,
      by rwa [← append_assoc], fun x => ?_, ?_⟩
    · rw [← append_assoc, hmem x, Names.mem_union]
      have hshare : share items n = part q.defs (n ∈ ended ++ new ++ new') n :=
        (hitems hdef').trans (hsince'.part_eq hnvis (hfr'.seen n hnvis)).symm
      rw [show (if items.isEmpty then [n] else items) = share items n from rfl, hshare]
      simp only [mem_cons, exists_eq_or_imp, hdef', true_and, or_assoc]
    · intro m hm hmdef
      rcases mem_cons.mp hm with rfl | hm
      · exact hfr'.visited m hnvis
      · exact hvis m hm hmdef
  | _ => exact nofun

end Search

namespace Pointer

variable {closed : Definitions} {rank : String → Nat} {n : String} {xs : Names}

lemma Endings.of_after (h : Endings base p ended) (ha : names.After p q)
    (hv : q.visited = p.visited)
    (hc : names.cache q.defs = names.cache p.defs) : Endings base q ended where
  first := ha.affected.trans h.first
  defined b hb := h.defined b (hv ▸ hb)
  visited b hb := hv ▸ h.visited b hb
  unvisited b hb := by
    rw [hc]
    exact h.unvisited b (hv ▸ hb)
  busy b hb hne e he := by
    obtain ⟨d, hd, hs⟩ := ha.settles b e he
    have hclosure : names.closure q.defs b = names.closure p.defs b := closure_congr (by rw [hc])
    rw [hs.start, hclosure]
    exact h.busy b (hv ▸ hb) hne d hd
  formed b hb := by
    refine (h.formed b hb).congr hb (fun m _ => by rw [hc]) fun e he => ?_
    obtain ⟨d, hd, hs⟩ := ha.settles b e he
    exact ⟨d, hd, hs.start⟩
  back := h.back

lemma Turns.endings (h : names.Turns false p q) (hp : names.Ready base p) (he : Endings base p [])
    (hv : p.visited = []) : ∃ ended, Endings base q ended ∧ ∀ b ∈ q.visited, b ∈ ended := by
  induction h with
  | refl => exact ⟨[], he, fun b hb => hv ▸ hb⟩
  | @tail q r hinit hlast ih =>
    obtain ⟨ended, hends, hall⟩ := ih
    have hq := Turns.ready hinit hp
    have hafter := (hlast.sane_after hq.sane).2
    cases hlast with
    | reset ns ha => exact ⟨ended, hends.of_after hafter rfl rfl, hall⟩
    | drop hv => exact ⟨ended, hends.of_after hafter rfl rfl, hall⟩
    | @visit _ ns o hs ho =>
      cases o with
      | none => cases ho rfl
      | some items =>
        obtain ⟨new, hsince, hends', -⟩ := hs.ends hq items rfl ended hends
          fun b hb hne => absurd (hall b hb) hne
        refine ⟨ended ++ new, hends', fun b hb => mem_append.mpr ?_⟩
        by_cases hbq : b ∈ q.visited
        · exact .inl (hall b hbq)
        · exact .inr ((hsince b).mpr ⟨hb, hbq⟩)

/-- The closures of `closed` come from visits that have ended in the order of `rank`. -/
structure Ordered (ds closed : Definitions) (rank : String → Nat) : Prop where
  back : ∀ a b, names.Edge ds a b → rank b < rank a ∨ ReflTransGen (names.Edge ds) b a
  formed : ∀ a d, ds.get? a = some d → ∃ xs, closed.closure.get? a = some xs ∧
    ∀ x, x ∈ xs ↔ x = a ∧ d.name.points.isEmpty = true ∨
      ∃ m, names.Edge ds a m ∧ x ∈ part closed (rank m < rank a) m
  undefined : ∀ a, ds.contains a = false → closed.closure.get? a = none

def Forward (ds : Definitions) (rank : String → Nat) (a b : String) : Prop :=
  names.Edge ds a b ∧ rank b < rank a

lemma share_ne_nil : share xs n ≠ [] := by
  unfold share
  split_ifs with he
  · exact cons_ne_nil n []
  · simpa using he

lemma mem_share_self (h : ∀ y ∈ xs, y = n) : x ∈ share xs n ↔ x = n := by
  unfold share
  split_ifs with he
  · exact mem_singleton
  · obtain ⟨y, hy⟩ := exists_mem_of_ne_nil xs (by simpa using he)
    obtain rfl := h y hy
    exact ⟨h x, fun heq => heq ▸ hy⟩

lemma part_ne_nil [Decidable done] (m : String) : part ds done m ≠ [] := by
  unfold part
  split_ifs
  · exact share_ne_nil
  · exact cons_ne_nil m []

lemma Edge.contains {k : Pointer} (h : k.Edge ds a b) : ds.contains a := by
  obtain ⟨⟨d, hd, -⟩, -⟩ := h
  exact contains_of_get? hd

lemma mem_start (hns : d.ns = a) : x ∈ names.start d ↔ x = a ∧ d.name.points.isEmpty := by
  unfold start
  split_ifs with he
  · simp [hns, show d.name.points.isEmpty from he]
  · simp [show ¬ d.name.points.isEmpty from he]

lemma ordered_closeNames (hwf : ds.WellFormed) (he : ds.closure.isEmpty) :
    ∃ rank, Ordered ds (closeNames ds) rank := by
  have hempty : ∀ a, (names.cache ds).get? a = none := Table.get?_eq_none_of_isEmpty he
  have hs : names.Sound ds ds := by
    intro a x hx
    rw [closure_of_none (hempty a)] at hx
    cases hx
  have hp := ready_start hwf hs []
  have hstart : Endings ds { defs := ds } [] :=
    ⟨rfl, nofun, nofun, fun b _ => hempty b, nofun, nofun, nofun⟩
  obtain ⟨p, hc, heq⟩ := closing_closeNames hwf.keyed
  rw [heq]
  cases hc with
  | idle hne _ => cases hne.symm.trans he
  | later hne _ _ _ _ _ => cases hne.symm.trans he
  | first _ ht hset _ =>
    obtain ⟨ended, hends, hall⟩ := Turns.endings ht hp hstart rfl
    have hafter := (Turns.sane_after ht hp.sane).2
    have hended : ∀ a d, ds.get? a = some d → a ∈ ended ∧
        ∃ xs, p.defs.closure.get? a = some xs := by
      intro a d hd
      obtain ⟨e, hget, -⟩ := hafter.kept hd
      have hkey : a ∈ ds.current.keys := Table.mem_keys_iff.mpr (contains_of_get? hd)
      obtain ⟨-, xs, hxs⟩ := hset rfl a hkey e hget
      refine ⟨hall a ?_, xs, hxs⟩
      by_contra hv
      rw [hends.unvisited a hv] at hxs
      cases hxs
    refine ⟨ended.idxOf, fun a b hab => ?_, fun a d hd => ?_, fun a hdef => ?_⟩
    · obtain ⟨d, hd⟩ := contains_iff.mp hab.contains
      exact hends.back a (hended a d hd).1 b hab
    · obtain ⟨hmem, xs, hxs⟩ := hended a d hd
      obtain ⟨e, hget, hset⟩ := hafter.kept hd
      refine ⟨xs, hxs, fun x => ?_⟩
      have hformed := hends.formed a hmem e hget x
      rwa [closure_of_cache (k := names) hxs, hset.start, mem_start (hwf.keyed a d hd)] at hformed
    · refine hends.unvisited a fun hv => ?_
      rw [hends.defined a hv] at hdef
      cases hdef

section Ordered

variable (h : Ordered ds closed rank)

include h

lemma Ordered.lt (hacyclic : names.Acyclic ds) (hab : names.Edge ds a b) : rank b < rank a :=
  (h.back a b hab).resolve_right fun hba => hacyclic a (.head' hab hba)

lemma Ordered.mem_closure (hab : names.Edge ds a b) :
    x ∈ names.closure closed a ↔ ∃ m, names.Edge ds a m ∧ x ∈ part closed (rank m < rank a) m := by
  obtain ⟨d, hd⟩ := contains_iff.mp hab.contains
  obtain ⟨xs, hxs, hmem⟩ := h.formed a d hd
  have hne : d.name.points.isEmpty = false :=
    pointer_of_hits (k := names) (c := fun _ => True) (grows_refl names ds) hd
      ⟨b, trivial, reaches_names_iff.mpr (.single hab)⟩
  rw [closure_of_cache (k := names) hxs, hmem x, hne]
  simp

lemma Ordered.closure_ne_nil (hab : names.Edge ds a b) : names.closure closed a ≠ [] := by
  have hne : part closed (rank b < rank a) b ≠ [] := part_ne_nil b
  obtain ⟨x, hx⟩ := exists_mem_of_ne_nil _ hne
  exact ne_nil_of_mem ((h.mem_closure hab).mpr ⟨b, hab, hx⟩)

lemma Ordered.mem_share (hm : ds.contains m) : x ∈ share (names.closure closed m) m ↔
      x = m ∧ ds.Terminal m ∨ (∃ y, names.Edge ds m y) ∧ x ∈ names.closure closed m := by
  by_cases hy : ∃ y, names.Edge ds m y
  · obtain ⟨y, hy⟩ := hy
    rw [share, if_neg (by simpa using h.closure_ne_nil hy)]
    refine ⟨fun hx => .inr ⟨⟨y, hy⟩, hx⟩, ?_⟩
    rintro (⟨-, hterm⟩ | ⟨-, hx⟩)
    · exact absurd hy (hterm.2 y)
    · exact hx
  · rw [not_exists] at hy
    have hself : ∀ y ∈ names.closure closed m, y = m := by
      obtain ⟨d, hd⟩ := contains_iff.mp hm
      obtain ⟨xs, hxs, hmem⟩ := h.formed m d hd
      rw [closure_of_cache (k := names) hxs]
      intro y hy'
      rcases (hmem y).mp hy' with ⟨rfl, -⟩ | ⟨z, hz, -⟩
      · rfl
      · exact absurd hz (hy z)
    simp [mem_share_self hself, hy, Terminal, hm]

lemma Ordered.mem_part (hm : names.Edge ds a m) :
    x ∈ part closed (rank m < rank a) m ↔ x = m ∧ (ds.Terminal m ∨ rank a ≤ rank m) ∨
        rank m < rank a ∧ (∃ y, names.Edge ds m y) ∧ x ∈ names.closure closed m := by
  unfold part
  split_ifs with hlt
  · rw [h.mem_share hm.2]
    simp [hlt, Nat.not_le_of_lt hlt]
  · simp [hlt, Nat.le_of_not_lt hlt]

/-- A closure holds the ends of the ways on which every edge but the last goes to a definition whose
visit ends before. -/
lemma Ordered.mem_closure_iff (hab : names.Edge ds a b) :
    x ∈ names.closure closed a ↔ ∃ b, ReflTransGen (Forward ds rank) a b ∧ names.Edge ds b x ∧
        (ds.Terminal x ∨ rank b ≤ rank x) := by
  constructor
  · -- the visits on the way end earlier and earlier
    induction hr : rank a using Nat.strong_induction_on generalizing a b with
    | _ n ih =>
      subst hr
      intro hx
      obtain ⟨m, hm, hx⟩ := (h.mem_closure hab).mp hx
      rcases (h.mem_part hm).mp hx with ⟨rfl, hend⟩ | ⟨hlt, ⟨y, hy⟩, hx⟩
      · exact ⟨a, .refl, hm, hend⟩
      · obtain ⟨c, hmc, hcx⟩ := ih (rank m) hlt hy rfl hx
        exact ⟨c, .head ⟨hm, hlt⟩ hmc, hcx⟩
  · rintro ⟨c, hac, hcx, hend⟩
    clear hab
    suffices (∃ y, names.Edge ds a y) ∧ x ∈ names.closure closed a from this.2
    induction hac using ReflTransGen.head_induction_on with
    | refl =>
      refine ⟨⟨x, hcx⟩, (h.mem_closure hcx).mpr ⟨x, hcx, ?_⟩⟩
      exact (h.mem_part hcx).mpr (.inl ⟨rfl, hend⟩)
    | @head a m ham _ ih =>
      refine ⟨⟨m, ham.1⟩, (h.mem_closure ham.1).mpr ⟨m, ham.1, ?_⟩⟩
      exact (h.mem_part ham.1).mpr (.inr ⟨ham.2, ih⟩)

end Ordered

end Pointer

namespace Definitions

/-- In a first computation only an edge that closes a cycle goes to a definition whose visit does
not end before. A closure holds exactly the ends of the ways that take no such edge but, at most, as
the last one. So it lacks a terminal definition only if every way there takes an edge of a cycle. -/
theorem mem_first_closure_iff {ds : Definitions} (hwf : ds.WellFormed)
    (he : ds.closure.isEmpty = true) :
    (∃ rank : String → Nat, (∀ a b, Pointer.names.Edge ds a b →
        rank b < rank a ∨ ReflTransGen (Pointer.names.Edge ds) b a) ∧
      ∀ a, (∃ b, Pointer.names.Edge ds a b) → ∀ x, x ∈ (closeNames ds).closure.getD a [] ↔
        ∃ b, ReflTransGen (Forward ds rank) a b ∧ Pointer.names.Edge ds b x ∧
          (ds.Terminal x ∨ rank b ≤ rank x)) ∧
    ∀ a t, ds.Terminal t → TransGen (fun u v => Pointer.names.Edge ds u v ∧
        ¬ ReflTransGen (Pointer.names.Edge ds) v u) a t →
      t ∈ (closeNames ds).closure.getD a [] := by
  obtain ⟨rank, h⟩ := ordered_closeNames hwf he
  refine ⟨⟨rank, h.back, ?_⟩, ?_⟩
  · rintro a ⟨b, hab⟩ x
    exact h.mem_closure_iff hab
  · intro a t ht hat
    have hforward : ∀ u v, Pointer.names.Edge ds u v ∧
        ¬ ReflTransGen (Pointer.names.Edge ds) v u → Forward ds rank u v :=
      fun u v huv => ⟨huv.1, (h.back u v huv.1).resolve_right huv.2⟩
    obtain ⟨b, hab, hbt⟩ := TransGen.tail'_iff.mp hat
    have hab' : ReflTransGen (Forward ds rank) a b := ReflTransGen.mono hforward _ _ hab
    obtain ⟨c, hac, -⟩ := TransGen.head'_iff.mp hat
    exact (h.mem_closure_iff hac.1).mpr ⟨b, hab', hbt.1, .inl ht⟩

/-- Two definitions that point to each other, the first of which points to an end too. -/
def loopOps : List Op :=
  [.var "a", .var "b", .var "t", .addName { ns := "a" } (.str "b"),
    .addName { ns := "a" } (.str "t"), .addName { ns := "b" } (.str "a")]

lemma loopOps_terminal : (run loopOps {}).Terminal "t" := by
  refine ⟨by decide +kernel, fun b hb => ?_⟩
  have hlink := hb.mem_links
  rw [show Pointer.names.links (run loopOps {}) = [("a", "b"), ("a", "t"), ("b", "a")] by
    decide +kernel] at hlink
  simp at hlink

theorem mem_first_closure_iff_loop :
    (run loopOps {}).WellFormed ∧ (run loopOps {}).closure.isEmpty = true ∧
      (run loopOps {}).Terminal "t" ∧ "t" ∈ (closeNames (run loopOps {})).closure.getD "a" [] := by
  have hwf := (listed_run loopOps).1
  have he : (run loopOps {}).closure.isEmpty = true := by decide +kernel
  refine ⟨hwf, he, loopOps_terminal, (mem_first_closure_iff hwf he).2 "a" "t" loopOps_terminal ?_⟩
  refine TransGen.single ⟨by decide +kernel, fun hback => ?_⟩
  rcases hback.cases_head with hta | ⟨b, htb, -⟩
  · exact absurd hta (by decide)
  · exact loopOps_terminal.2 b htb

/-- When `b` is visited, the visit of `a`, which leads to the end, is still going on. -/
theorem end_behind_cycle_missing :
    (run loopOps {}).WellFormed ∧ (run loopOps {}).closure.isEmpty = true ∧
      (run loopOps {}).Terminal "t" ∧
      TransGen (Pointer.names.Edge (run loopOps {})) "b" "t" ∧
      "t" ∉ (closeNames (run loopOps {})).closure.getD "b" [] := by
  refine ⟨(listed_run loopOps).1, by decide +kernel, loopOps_terminal, ?_, by decide +kernel⟩
  exact TransGen.tail (TransGen.single (b := "a") (by decide +kernel)) (by decide +kernel)

end Definitions

end SinkTrace
