import SinkTrace.Definition.Closure
import SinkTrace.Proofs.Definition.Edits

/-!
# Where pointers lead

The name pointers and the taint pointers of a definition table are two graphs over its namespaces.
What is said about them here, and later about their closures, is said for both at once:
`Pointer` tells which of the two is meant, and its functions pick out the parts of a definition
and of a table that belong to it.
-/

namespace SinkTrace.Pointer

open Definitions Relation

variable {k : Pointer} {ds ds' : Definitions} {d : Definition} {xs ys : Names} {a b ns x : String}
  {c : String → Prop}

/-! ### The parts that belong to a flow -/

def cache : Pointer → Definitions → NameTable
  | names, ds => ds.closure
  | taints, ds => ds.taints

def isMark : Pointer → String → Bool
  | names, _ => false
  | taints, n => isSinkMark n

def closure (k : Pointer) (ds : Definitions) (ns : String) : Names := (k.cache ds).getD ns []

lemma closure_of_cache (h : (k.cache ds).get? ns = some xs) : k.closure ds ns = xs :=
  Table.getD_of_get? h []

lemma closure_of_none (h : (k.cache ds).get? ns = none) : k.closure ds ns = [] := by
  simp [closure, Table.getD, h]

lemma closure_congr (h : (k.cache ds').get? ns = (k.cache ds).get? ns) :
    k.closure ds' ns = k.closure ds ns := by simp [closure, Table.getD, h]

/-! ### Paths -/

/-- The definition of `a` points to `b`, and `b` is defined too. -/
def Edge (k : Pointer) (ds : Definitions) (a b : String) : Prop :=
  (∃ d, ds.get? a = some d ∧ b ∈ (k.pointer d).names) ∧ ds.contains b = true

lemma edge_iff : k.Edge ds a b ↔
      (ds.get? a).any (fun d => (k.pointer d).names.contains b) ∧ ds.contains b := by
  simp [Edge, Option.any_eq_true]

instance (k : Pointer) (ds : Definitions) (a b : String) : Decidable (k.Edge ds a b) :=
  decidable_of_iff' _ edge_iff

variable (k ds)

def Live (x : String) : Prop := ds.contains x = true ∨ k.isMark x = true

/-- A path of one edge or more leads from `a` to `x`, which is defined or the mark of a sink. -/
def Reaches (a x : String) : Prop :=
  ∃ b, ReflTransGen (k.Edge ds) a b ∧
    (∃ d, ds.get? b = some d ∧ x ∈ (k.pointer d).names) ∧ k.Live ds x

def Acyclic : Prop := ∀ a, ¬ TransGen (k.Edge ds) a a

def links : List (String × String) :=
  ds.current.entries.flatMap fun e => (k.pointer e.2).names.map (e.1, ·)

variable {k ds}

lemma mem_links (hd : ds.get? a = some d) (hb : b ∈ (k.pointer d).names) : (a, b) ∈ k.links ds := by
  refine List.mem_flatMap.mpr ⟨(a, d), Table.mem_entries_of_get? hd, ?_⟩
  exact List.mem_map.mpr ⟨b, hb, rfl⟩

lemma Edge.mem_links (h : k.Edge ds a b) : (a, b) ∈ k.links ds := by
  obtain ⟨⟨d, hd, hb⟩, -⟩ := h
  exact Pointer.mem_links hd hb

lemma acyclic_of_rank (rank : String → Nat) (h : ∀ l ∈ k.links ds, rank l.1 < rank l.2) :
    k.Acyclic ds := by
  have hlt : ∀ a b, TransGen (k.Edge ds) a b → rank a < rank b := by
    intro a b hab
    induction hab with
    | single hab => exact h _ hab.mem_links
    | tail _ hbc ih => exact Nat.lt_trans ih (h _ hbc.mem_links)
  exact fun a ha => Nat.lt_irrefl _ (hlt a a ha)

lemma reaches_of_pointer (hd : ds.get? ns = some d) (hx : x ∈ (k.pointer d).names)
    (hl : k.Live ds x) :
    k.Reaches ds ns x := ⟨ns, .refl, ⟨d, hd, hx⟩, hl⟩

lemma Reaches.transGen (h : k.Reaches ds a x) (hx : ds.contains x) : TransGen (k.Edge ds) a x := by
  obtain ⟨b, hab, hb, -⟩ := h
  exact .tail' hab ⟨hb, hx⟩

lemma Reaches.live (h : k.Reaches ds a x) : k.Live ds x := by
  obtain ⟨b, -, -, hl⟩ := h
  exact hl

lemma Reaches.head (hab : ReflTransGen (k.Edge ds) a b) (h : k.Reaches ds b x) :
    k.Reaches ds a x := by
  obtain ⟨c, hbc, hc⟩ := h
  exact ⟨c, hab.trans hbc, hc⟩

lemma Reaches.contains (h : k.Reaches ds a x) : ds.contains a := by
  obtain ⟨b, hab, ⟨d, hd, -⟩, -⟩ := h
  rcases hab.cases_head with rfl | ⟨c, hac, -⟩
  · exact contains_of_get? hd
  · obtain ⟨⟨e, he, -⟩, -⟩ := hac
    exact contains_of_get? he

lemma Reaches.trans (hab : k.Reaches ds a b) (hbx : k.Reaches ds b x) : k.Reaches ds a x :=
  Reaches.head (hab.transGen hbx.contains).to_reflTransGen hbx

lemma Reaches.ne (hk : k.Acyclic ds) (h : k.Reaches ds a x) (ha : ds.contains a) : x ≠ a := by
  rintro rfl
  exact hk x (h.transGen ha)

lemma Reaches.cases_head (hd : ds.get? a = some d) (h : k.Reaches ds a x) :
    ∃ m ∈ (k.pointer d).names, k.Live ds m ∧ (x = m ∨ k.Reaches ds m x) := by
  obtain ⟨b, hab, ⟨e, he, hx⟩, hl⟩ := h
  rcases hab.cases_head with rfl | ⟨c, hac, hcb⟩
  · obtain rfl : d = e := Option.some.inj (hd.symm.trans he)
    exact ⟨x, hx, hl, .inl rfl⟩
  · obtain ⟨⟨d', hd', hc⟩, hdef⟩ := hac
    obtain rfl : d = d' := Option.some.inj (hd.symm.trans hd')
    exact ⟨c, hc, .inl hdef, .inr ⟨b, hcb, ⟨e, he, hx⟩, hl⟩⟩

lemma reaches_names_iff : names.Reaches ds a x ↔ TransGen (names.Edge ds) a x := by
  constructor
  · intro h
    obtain ⟨b, -, -, hx | hx⟩ := id h
    · exact h.transGen hx
    · cases hx
  · intro h
    obtain ⟨b, hab, hbx⟩ := TransGen.tail'_iff.mp h
    exact ⟨b, hab, hbx.1, .inl hbx.2⟩

lemma reaches_taints_iff : taints.Reaches ds a x ↔ TransGen (taints.Edge ds) a x ∨
      isSinkMark x ∧ ∃ b d, ReflTransGen (taints.Edge ds) a b ∧ ds.get? b = some d ∧
        x ∈ d.taints.names := by
  constructor
  · intro h
    obtain ⟨b, hab, ⟨d, hd, hx⟩, hl | hl⟩ := id h
    · exact .inl (h.transGen hl)
    · exact .inr ⟨hl, b, d, hab, hd, hx⟩
  · rintro (h | ⟨hm, b, d, hab, hd, hx⟩)
    · obtain ⟨b, hab, hbx⟩ := TransGen.tail'_iff.mp h
      exact ⟨b, hab, hbx.1, .inl hbx.2⟩
    · exact ⟨b, hab, ⟨d, hd, hx⟩, .inr hm⟩

/-! ### Kinds of names -/

def Has (c : String → Prop) (xs : Names) : Prop := ∃ x ∈ xs, c x

lemma Has.union (h : Has c xs) : Has c (xs.union ys) := by
  obtain ⟨x, hx, hc⟩ := h
  exact ⟨x, Names.mem_union.mpr (.inl hx), hc⟩

lemma has_union : Has c (xs.union ys) ↔ Has c xs ∨ Has c ys := by
  simp only [Has, Names.mem_union, or_and_right, exists_or]

lemma Has.of_cons {n : String} (hn : ¬ c n) (h : Has c (n :: xs)) : Has c xs := by
  obtain ⟨x, hx, hc⟩ := h
  rcases List.mem_cons.mp hx with rfl | hx
  · exact absurd hc hn
  · exact ⟨x, hx, hc⟩

/-! ### Tables with more paths -/

/-- What is defined in `ds` is defined in `ds'` and points to at least as much. -/
def Grows (k : Pointer) (ds ds' : Definitions) : Prop :=
  ∀ ns d, ds.get? ns = some d →
    ∃ e, ds'.get? ns = some e ∧ ∀ x ∈ (k.pointer d).names, x ∈ (k.pointer e).names

lemma grows_refl (k : Pointer) (ds : Definitions) : k.Grows ds ds :=
  fun _ d hd => ⟨d, hd, fun _ hx => hx⟩

lemma Grows.trans {a b c : Definitions} (h : k.Grows a b) (h' : k.Grows b c) : k.Grows a c := by
  intro ns d hd
  obtain ⟨e, he, hde⟩ := h ns d hd
  obtain ⟨f, hf, hef⟩ := h' ns e he
  exact ⟨f, hf, fun x hx => hef x (hde x hx)⟩

lemma Grows.contains (h : k.Grows ds ds') (hns : ds.contains ns) : ds'.contains ns := by
  obtain ⟨d, hd⟩ := contains_iff.mp hns
  obtain ⟨e, he, -⟩ := h ns d hd
  exact contains_of_get? he

lemma Edge.mono (h : k.Grows ds ds') (hab : k.Edge ds a b) : k.Edge ds' a b := by
  obtain ⟨⟨d, hd, hb⟩, hdef⟩ := hab
  obtain ⟨e, he, hde⟩ := h a d hd
  exact ⟨⟨e, he, hde b hb⟩, h.contains hdef⟩

lemma Reaches.mono (h : k.Grows ds ds') (hax : k.Reaches ds a x) : k.Reaches ds' a x := by
  obtain ⟨b, hab, ⟨d, hd, hx⟩, hl⟩ := hax
  obtain ⟨e, he, hde⟩ := h b d hd
  exact ⟨b, ReflTransGen.mono (fun _ _ => Edge.mono h) _ _ hab, ⟨e, he, hde x hx⟩,
    hl.imp_left h.contains⟩

lemma Acyclic.anti (h : k.Grows ds ds') (hk : k.Acyclic ds') : k.Acyclic ds :=
  fun a ha => hk a (TransGen.mono (fun _ _ => Edge.mono h) _ _ ha)

lemma cache_of_edit {replace : Bool} (h : Edit replace ds ds') : k.cache ds' = k.cache ds := by
  cases k with
  | names => exact h.sameCaches.closure
  | taints => exact h.sameCaches.taints

lemma grows_of_edit (h : Edit false ds ds') : k.Grows ds ds' := by
  intro ns d hd
  obtain ⟨e, he, hg⟩ := h.kept hd
  cases k with
  | names => exact ⟨e, he, hg.name.points.names⟩
  | taints => exact ⟨e, he, hg.taints.names⟩

end SinkTrace.Pointer
