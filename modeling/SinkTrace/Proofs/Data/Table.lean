import Mathlib.Data.List.Perm.Subperm
import SinkTrace.Data.Names

/-!
# Tables as partial functions

Every operation on a table is described through `get?`: which key it looks at and what it finds
there. Membership of a key is `get?` being defined, so it needs no description of its own.
-/

namespace SinkTrace.Table

variable {β γ κ : Type} {t u : Table κ β} {j k : κ} {v : β} {e : κ × β} {f : β → β}

/-! ### Empty tables and keys -/

lemma keys_mapValues (f : β → γ) (t : Table κ β) : (t.mapValues f).keys = t.keys := by
  simp only [keys, mapValues, List.map_map]
  rfl

lemma length_keys (t : Table κ β) : t.keys.length = t.size := by simp [keys, size]

variable [BEq κ]

lemma get?_eq_none_of_isEmpty (h : t.isEmpty) (k : κ) : t.get? k = none := by
  simp only [isEmpty, List.isEmpty_iff] at h
  simp [get?, h]

lemma getD_of_get? (h : t.get? k = some v) (d : β) : t.getD k d = v := by simp [getD, h]

@[simp] lemma keys_modify (t : Table κ β) (k : κ) (f : β → β) : (t.modify k f).keys = t.keys := by
  simp only [keys, modify, List.map_map]
  apply List.map_congr_left
  intro e _
  by_cases h : e.1 == k <;> simp [h]

lemma get?_mapValues (f : β → γ) (t : Table κ β) (k : κ) :
    (t.mapValues f).get? k = (t.get? k).map f := by
  obtain ⟨es⟩ := t
  simp only [get?, mapValues, List.find?_map, Option.map_map]
  rfl

lemma contains_eq_isSome (t : Table κ β) (k : κ) : t.contains k = (t.get? k).isSome := by
  simp only [contains, get?, Option.isSome_map]
  exact List.isSome_find?.symm

lemma contains_iff : t.contains k ↔ ∃ v, t.get? k = some v := by
  rw [contains_eq_isSome, Option.isSome_iff_exists]

lemma not_contains_iff : t.contains k = false ↔ t.get? k = none := by
  rw [contains_eq_isSome, Option.isSome_eq_false_iff, Option.isNone_iff_eq_none]

lemma contains_of_get? (h : t.get? k = some v) : t.contains k := contains_iff.mpr ⟨v, h⟩

lemma keys_set_eq_ite (t : Table κ β) (k : κ) (v : β) :
    (t.set k v).keys = if t.contains k then t.keys else t.keys ++ [k] := by
  obtain ⟨es⟩ := t
  change (setIn k v es).map (·.1) = if es.any (·.1 == k) then es.map (·.1) else es.map (·.1) ++ [k]
  induction es with
  | nil => rfl
  | cons e es ih =>
    by_cases hk : e.1 == k
    · simp [setIn, hk]
    · simp only [setIn, hk, List.any_cons, Bool.false_or, List.map_cons, List.cons_append]
      rw [if_neg Bool.false_ne_true, List.map_cons, ih]
      split_ifs <;> rfl

lemma size_set (t : Table κ β) (k : κ) (v : β) :
    (t.set k v).size = if t.contains k then t.size else t.size + 1 := by
  simp only [← length_keys, keys_set_eq_ite]
  split_ifs <;> simp

lemma keys_subset_set : t.keys ⊆ (t.set k v).keys := by
  rw [keys_set_eq_ite]
  split_ifs
  · exact List.Subset.refl _
  · exact List.subset_append_left ..

lemma keys_subset_setNew : t.keys ⊆ (t.setNew k v).keys := by
  unfold setNew
  split_ifs
  · exact List.Subset.refl _
  · exact keys_subset_set

lemma keys_subset_update (t : Table κ β) : t.keys ⊆ (t.update u).keys := by
  obtain ⟨es⟩ := u
  induction es generalizing t with
  | nil => exact List.Subset.refl _
  | cons e es ih => exact List.Subset.trans keys_subset_set (ih (t.set e.1 e.2))

variable [LawfulBEq κ]

lemma mem_entries_set (h : e ∈ (t.set k v).entries) : e = (k, v) ∨ e ∈ t.entries := by
  obtain ⟨es⟩ := t
  change e ∈ setIn k v es at h
  change _ ∨ e ∈ es
  induction es with
  | nil => exact .inl (List.mem_singleton.mp h)
  | cons d es ih =>
    unfold setIn at h
    split_ifs at h with hd
    · rcases List.mem_cons.mp h with rfl | h
      · exact .inl (by rw [eq_of_beq hd])
      · exact .inr (List.mem_cons_of_mem _ h)
    · rcases List.mem_cons.mp h with rfl | h
      · exact .inr List.mem_cons_self
      · exact (ih h).imp_right (List.mem_cons_of_mem _)

lemma mem_entries_modify (h : e ∈ (t.modify k f).entries) :
    (∃ d ∈ t.entries, d.1 = k ∧ (k, f d.2) = e) ∨ e ∈ t.entries ∧ e.1 ≠ k := by
  obtain ⟨d, hd, rfl⟩ := List.mem_map.mp h
  by_cases hk : d.1 = k
  · exact .inl ⟨d, hd, hk, by simp [hk]⟩
  · refine .inr ?_
    rw [if_neg fun heq => hk (eq_of_beq heq)]
    exact ⟨hd, hk⟩

lemma mem_of_mem_update (h : e ∈ (t.update u).entries) : e ∈ t.entries ∨ e ∈ u.entries := by
  obtain ⟨es⟩ := u
  induction es generalizing t with
  | nil => exact .inl h
  | cons d es ih =>
    rcases ih h with h | h
    · rcases mem_entries_set h with rfl | h
      · exact .inr List.mem_cons_self
      · exact .inl h
    · exact .inr (List.mem_cons_of_mem _ h)

lemma mem_of_mem_ofList {es : List (κ × β)} (h : e ∈ (ofList es).entries) : e ∈ es :=
  (mem_of_mem_update h).resolve_left List.not_mem_nil

lemma mem_keys_iff : k ∈ t.keys ↔ t.contains k := by
  simp only [keys, contains, List.mem_map, List.any_eq_true, beq_iff_eq]

lemma keys_set (t : Table κ β) (k : κ) (v : β) : (t.set k v).keys = t.keys.insertEnd k := by
  simp only [keys_set_eq_ite, List.insertEnd, List.contains_iff_mem, mem_keys_iff]

lemma keys_setNew : (t.setNew k v).keys = t.keys.insertEnd k := by
  unfold setNew
  split_ifs with hk
  · simp [List.insertEnd, mem_keys_iff, hk]
  · rw [keys_set]

lemma nodup_keys_set (h : t.keys.Nodup) : (t.set k v).keys.Nodup := by
  rw [keys_set]
  exact List.nodup_insertEnd h

lemma get?_of_mem_entries (h : t.keys.Nodup) (hmem : (k, v) ∈ t.entries) : t.get? k = some v := by
  obtain ⟨es⟩ := t
  change (es.map (·.1)).Nodup at h
  change (k, v) ∈ es at hmem
  change ((es.find? fun e => e.1 == k).map (·.2)) = some v
  induction es with
  | nil => cases hmem
  | cons d es ih =>
    obtain ⟨hd, hes⟩ := List.nodup_cons.mp h
    rcases List.mem_cons.mp hmem with rfl | hmem
    · simp
    · have hne : (d.1 == k) = false :=
        beq_false_of_ne fun heq => hd (List.mem_map.mpr ⟨(k, v), hmem, heq.symm⟩)
      rw [List.find?_cons, hne]
      exact ih hes hmem

lemma get?_filter (h : t.keys.Nodup) (p : κ × β → Bool) (k : κ) :
    Table.get? ⟨t.entries.filter p⟩ k = (t.get? k).filter fun v => p (k, v) := by
  obtain ⟨es⟩ := t
  change (es.map (·.1)).Nodup at h
  change (((es.filter p).find? fun e => e.1 == k).map (·.2))
    = ((es.find? fun e => e.1 == k).map (·.2)).filter fun v => p (k, v)
  induction es with
  | nil => rfl
  | cons d es ih =>
    obtain ⟨hd, hes⟩ := List.nodup_cons.mp h
    by_cases hk : d.1 = k
    · subst hk
      -- no other entry has the key, so a removed one is missed
      have hrest : ((es.filter p).find? fun e => e.1 == d.1) = none := by
        rw [List.find?_eq_none]
        intro e he heq
        exact hd (List.mem_map.mpr ⟨e, (List.mem_filter.mp he).1, eq_of_beq heq⟩)
      by_cases hp : p d
      · simp [hp, Option.filter]
      · simp [hp, hrest, Option.filter]
    · have hne : (d.1 == k) = false := beq_false_of_ne hk
      rw [List.find?_cons, hne, ← ih hes, List.filter_cons]
      split_ifs
      · rw [List.find?_cons, hne]
      · rfl

lemma mem_entries_of_get? (h : t.get? k = some v) : (k, v) ∈ t.entries := by
  obtain ⟨⟨j, w⟩, hfind, rfl⟩ := Option.map_eq_some_iff.mp h
  have hj : (j == k) := List.find?_some (p := fun e : κ × β => e.1 == k) hfind
  obtain rfl : j = k := eq_of_beq hj
  exact List.mem_of_find?_eq_some hfind

lemma mem_values_of_get? (h : t.get? k = some v) : v ∈ t.values :=
  List.mem_map_of_mem (mem_entries_of_get? h)

lemma exists_get?_of_isEmpty (h : t.isEmpty = false) : ∃ k v, t.get? k = some v := by
  obtain ⟨_ | ⟨⟨k, v⟩, es⟩⟩ := t
  · cases h
  · exact ⟨k, v, by simp [get?]⟩

lemma rel_of_all {R : β → β → Prop} (hkeys : ∀ k, t.contains k → u.contains k)
    (hall : ∀ e ∈ u.entries, ∃ v, t.get? e.1 = some v ∧ R v e.2) (k : κ) :
    Option.Rel R (t.get? k) (u.get? k) := by
  cases hu : u.get? k with
  | some v =>
    obtain ⟨v', ht, hR⟩ := hall (k, v) (mem_entries_of_get? hu)
    rw [ht]
    exact .some hR
  | none =>
    have hnone : t.get? k = none := by
      refine not_contains_iff.mp (Bool.eq_false_iff.mpr fun ht => ?_)
      obtain ⟨v, hv⟩ := contains_iff.mp (hkeys k ht)
      rw [hu] at hv
      cases hv
    rw [hnone]
    exact .none

lemma length_le_size {ks : List κ} (hnodup : ks.Nodup) (hks : ∀ k ∈ ks, t.contains k) :
    ks.length ≤ t.size := by
  rw [← length_keys]
  exact (hnodup.subperm fun k hk => mem_keys_iff.mpr (hks k hk)).length_le

variable [DecidableEq κ]

/-! ### What is found after a change -/

lemma get?_set : (t.set k v).get? j = if j = k then some v else t.get? j := by
  split_ifs with h
  · rw [h, get?_set_self]
  · exact get?_set_of_ne h v

lemma contains_set : (t.set k v).contains j ↔ j = k ∨ t.contains j := by
  rw [contains_eq_isSome, contains_eq_isSome, get?_set]
  split_ifs with hj <;> simp [hj]

lemma find?_modifyIn (k j : κ) (f : β → β) (es : List (κ × β)) :
    ((es.map fun e => if e.1 == k then (e.1, f e.2) else e).find? fun e => e.1 == j)
      = (es.find? fun e => e.1 == j).map fun e => if j = k then (e.1, f e.2) else e := by
  induction es with
  | nil => rfl
  | cons e es ih =>
    obtain ⟨a, v⟩ := e
    by_cases haj : a = j
    · subst haj
      by_cases hak : a = k <;> simp [hak]
    · by_cases hak : a = k
      · subst hak
        simpa [haj] using ih
      · simpa [haj, hak] using ih

section Keys

variable (t : Table κ β) (k j : κ)

lemma get?_modify (f : β → β) :
    (t.modify k f).get? j = if j = k then (t.get? j).map f else t.get? j := by
  simp only [get?, modify, find?_modifyIn, Option.map_map]
  split_ifs with h <;> rfl

lemma get?_erase : (t.erase k).get? j = if j = k then none else t.get? j := by
  simp only [get?, erase, List.find?_filter]
  split_ifs with h
  · subst h
    simp
  · congr 2
    funext e
    by_cases he : e.1 = j
    · simp [he, h]
    · simp [he]

@[simp] lemma contains_modify (f : β → β) : (t.modify k f).contains j = t.contains j := by
  rw [contains_eq_isSome, contains_eq_isSome, get?_modify]
  split_ifs <;> simp

lemma get?_setNew :
    (t.setNew k v).get? j = if j = k then some ((t.get? k).getD v) else t.get? j := by
  unfold setNew
  by_cases hk : t.contains k
  · obtain ⟨w, hw⟩ := contains_iff.mp hk
    rw [if_pos hk]
    split_ifs with h
    · rw [h, hw]
      rfl
    · rfl
  · have hnone := not_contains_iff.mp (Bool.eq_false_iff.mpr hk)
    rw [if_neg hk, get?_set, hnone]
    rfl

end Keys

lemma contains_setNew (h : j = k ∨ t.contains j) : (t.setNew k v).contains j := by
  rw [contains_iff, get?_setNew]
  split_ifs with hjk
  · exact ⟨_, rfl⟩
  · exact contains_iff.mp (h.resolve_left hjk)

/-! ### Rows -/

@[simp] lemma getD_setNew (t : Table κ β) (k j : κ) (v : β) :
    (t.setNew k v).getD j v = t.getD j v := by
  simp only [getD, get?_setNew]
  split_ifs with h
  · rw [h]
    rfl
  · rfl

lemma getD_set (t : Table κ β) (k j : κ) (v d : β) :
    (t.set k v).getD j d = if j = k then v else t.getD j d := by
  simp only [getD, get?_set]
  split_ifs <;> rfl

lemma getD_modify {d : β} (hf : f d = d) :
    (t.modify k f).getD j d = if j = k then f (t.getD j d) else t.getD j d := by
  simp only [getD, get?_modify]
  split_ifs
  · cases t.get? j with
    | none => exact hf.symm
    | some v => rfl
  · rfl

lemma getD_modify_of_contains (h : t.contains k) (j : κ) (f : β → β) (d : β) :
    (t.modify k f).getD j d = if j = k then f (t.getD j d) else t.getD j d := by
  obtain ⟨v, hv⟩ := contains_iff.mp h
  simp only [getD, get?_modify]
  split_ifs with hjk
  · rw [hjk, hv]
    rfl
  · rfl

end SinkTrace.Table
