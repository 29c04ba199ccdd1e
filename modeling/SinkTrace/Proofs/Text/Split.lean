import Mathlib.Data.List.Basic
import SinkTrace.Text.Basic

/-!
# Cutting text

A text is cut at a mark that is a single character. It is one piece exactly if the mark does not
occur in it, and two pieces that the mark does not occur in are found again where they are joined by
it. What is left without the places of a longer mark is the text itself only where there are none.
-/

namespace SinkTrace.Text

open List

variable {c : Char} {a p : List Char} {b s t : String}

lemma cutChars?_of_not_mem {s : List Char} (h : c ∉ s) : cutChars? [c] s = none := by
  induction s with
  | nil => rfl
  | cons d s ih =>
    obtain ⟨hd, hs⟩ := not_or.mp (mt mem_cons.mpr h)
    simp [cutChars?, afterPrefix?, hd, ih hs]

lemma cutChars?_append (h : c ∉ a) (b : List Char) : cutChars? [c] (a ++ c :: b) = some (a, b) := by
  induction a with
  | nil => simp [cutChars?, afterPrefix?]
  | cons d a ih =>
    obtain ⟨hd, ha⟩ := not_or.mp (mt mem_cons.mpr h)
    simp [cutChars?, afterPrefix?, hd, ih ha]

lemma cutChars?_eq_some {s b : List Char} (h : cutChars? [c] s = some (a, b)) :
    s = a ++ c :: b ∧ c ∉ a := by
  have happend := append_of_cutChars? h
  rw [append_assoc, singleton_append] at happend
  refine ⟨happend, fun hmem => ?_⟩
  obtain ⟨u, v, rfl, hu⟩ := eq_append_cons_of_mem hmem
  rw [happend, append_assoc, cons_append, cutChars?_append hu] at h
  have hlength := congrArg length (Prod.mk.inj (Option.some.inj h)).1
  simp at hlength

lemma splitChars_of_none {s : List Char} (hp : p ≠ []) (h : cutChars? p s = none) :
    splitChars p s = [s] := by
  rw [splitChars, dif_neg (by simpa using hp)]
  split
  · rfl
  · next hcut => cases h.symm.trans hcut

lemma splitChars_of_some {s b : List Char} (hp : p ≠ []) (h : cutChars? p s = some (a, b)) :
    splitChars p s = a :: splitChars p b := by
  rw [splitChars, dif_neg (by simpa using hp)]
  split
  · next hcut => cases h.symm.trans hcut
  · next hcut =>
    cases h.symm.trans hcut
    rfl

lemma splitChars_of_not_mem {s : List Char} (h : c ∉ s) : splitChars [c] s = [s] :=
  splitChars_of_none (cons_ne_nil c []) (cutChars?_of_not_mem h)

lemma splitChars_append (h : c ∉ a) (b : List Char) :
    splitChars [c] (a ++ c :: b) = a :: splitChars [c] b :=
  splitChars_of_some (cons_ne_nil c []) (cutChars?_append h b)

lemma length_splitChars (c : Char) (s : List Char) : (splitChars [c] s).length = s.count c + 1 := by
  induction hn : s.length using Nat.strongRecOn generalizing s with
  | ind n ih =>
    by_cases h : c ∈ s
    · obtain ⟨a, b, rfl, ha⟩ := eq_append_cons_of_mem h
      have hb : b.length < n := by
        rw [← hn]
        simp
        omega
      rw [splitChars_append ha, length_cons, ih _ hb b rfl, count_append,
        count_eq_zero_of_not_mem ha, count_cons_self, Nat.zero_add]
    · rw [splitChars_of_not_mem h, count_eq_zero_of_not_mem h]
      rfl

lemma length_flatten_splitChars_le (p s : List Char) :
    (splitChars p s).flatten.length ≤ s.length := by
  fun_induction splitChars p s with
  | case1 => simp
  | case2 => simp
  | case3 s hp a b hcut ih =>
    rw [append_of_cutChars? hcut]
    simp only [flatten_cons, length_append]
    omega

lemma flatten_splitChars_iff (hp : p ≠ []) (s : List Char) :
    (splitChars p s).flatten = s ↔ cutChars? p s = none := by
  rcases hcut : cutChars? p s with _ | ⟨a, b⟩
  · simp [splitChars_of_none hp hcut]
  · rw [splitChars_of_some hp hcut]
    simp only [flatten_cons, reduceCtorEq, iff_false]
    intro heq
    have hlength := congrArg length (heq.trans (append_of_cutChars? hcut))
    have hpos := length_pos_iff.mpr hp
    have hle := length_flatten_splitChars_le p b
    simp only [length_append] at hlength
    omega

/-! ### Strings -/

variable {sep : String} (hsep : sep.toList = [c])

include hsep

lemma splitOn_of_not_mem (h : c ∉ s.toList) : splitOn s sep = [s] := by
  rw [splitOn, hsep, splitChars_of_not_mem h]
  simp

lemma splitOn_append (hs : c ∉ s.toList) (t : String) :
    splitOn (s ++ sep ++ t) sep = s :: splitOn t sep := by
  have hjoin : (s ++ sep ++ t).toList = s.toList ++ c :: t.toList := by simp [hsep]
  rw [splitOn, splitOn, hsep, hjoin, splitChars_append hs]
  simp

lemma splitOn_pair (hs : c ∉ s.toList) (ht : c ∉ t.toList) :
    splitOn (s ++ sep ++ t) sep = [s, t] := by
  rw [splitOn_append hsep hs, splitOn_of_not_mem hsep ht]

lemma splitOn_intercalate {xs : List String} (hne : xs ≠ []) (h : ∀ x ∈ xs, c ∉ x.toList) :
    splitOn (String.intercalate sep xs) sep = xs := by
  induction xs with
  | nil => exact absurd rfl hne
  | cons x xs ih =>
    obtain ⟨hx, hxs⟩ := forall_mem_cons.mp h
    cases xs with
    | nil =>
      rw [String.intercalate_singleton]
      exact splitOn_of_not_mem hsep hx
    | cons y ys => rw [String.intercalate_cons_cons, splitOn_append hsep hx,
        ih (cons_ne_nil _ _) hxs]

lemma length_splitOn (s : String) : (splitOn s sep).length = s.toList.count c + 1 := by
  rw [splitOn, hsep, length_map, length_splitChars]

lemma cutLast?_of_not_mem (h : c ∉ s.toList) : cutLast? s sep = none := by
  rw [cutLast?, hsep, reverse_singleton, cutChars?_of_not_mem (by simpa using h)]
  rfl

lemma cutLast?_append (a : String) (hb : c ∉ b.toList) :
    cutLast? (a ++ sep ++ b) sep = some (a, b) := by
  have hjoin : (a ++ sep ++ b).toList.reverse = b.toList.reverse ++ c :: a.toList.reverse := by
    simp [hsep]
  rw [cutLast?, hsep, reverse_singleton, hjoin, cutChars?_append (by simpa using hb)]
  simp

lemma cutLast?_eq_some {a : String} (h : cutLast? s sep = some (a, b)) :
    s = a ++ sep ++ b ∧ c ∉ b.toList := by
  obtain ⟨⟨u, v⟩, hcut, heq⟩ := Option.map_eq_some_iff.mp h
  rw [hsep] at hcut
  obtain ⟨huv, hu⟩ := cutChars?_eq_some hcut
  obtain ⟨rfl, rfl⟩ := Prod.mk.inj heq
  refine ⟨String.toList_injective ?_, by simpa using hu⟩
  rw [← reverse_reverse s.toList, huv]
  simp [hsep]

lemma length_of_cutLast? {a : String} (h : cutLast? s sep = some (a, b)) : a.length < s.length := by
  obtain ⟨rfl, -⟩ := cutLast?_eq_some hsep h
  have hmark : sep.length = 1 := by rw [← String.length_toList, hsep]; rfl
  rw [String.length_append, String.length_append]
  omega

lemma splitOn_eq_singleton (h : splitOn s sep = [t]) : c ∉ s.toList ∧ t = s := by
  have hlength := length_splitOn hsep s
  rw [h, length_singleton] at hlength
  have hs : c ∉ s.toList := count_eq_zero.mp (by omega)
  rw [splitOn_of_not_mem hsep hs, singleton_inj] at h
  exact ⟨hs, h.symm⟩

lemma splitOn_eq_pair {a : String} (h : splitOn s sep = [a, b]) :
    s = a ++ sep ++ b ∧ c ∉ a.toList ∧ c ∉ b.toList := by
  have hlength := length_splitOn hsep s
  rw [h, length_cons, length_singleton] at hlength
  have hs : c ∈ s.toList := count_pos_iff.mp (by omega)
  obtain ⟨u, v, huv, hu⟩ := eq_append_cons_of_mem hs
  have hv : c ∉ v := by
    rw [huv, count_append, count_cons_self, count_eq_zero_of_not_mem hu] at hlength
    exact count_eq_zero.mp (by omega)
  rw [splitOn, hsep, huv, splitChars_append hu, splitChars_of_not_mem hv] at h
  obtain ⟨rfl, rfl⟩ : String.ofList u = a ∧ String.ofList v = b := by simpa using h
  refine ⟨String.toList_injective ?_, by simpa using hu, by simpa using hv⟩
  simp [huv, hsep]

lemma append_mark_inj {a a' b' : String} (ha : c ∉ a.toList) (hb : c ∉ b.toList)
    (h : a ++ sep ++ b = a' ++ sep ++ b') : a = a' ∧ b = b' := by
  have hcount := congrArg (·.toList.count c) h
  simp only [String.toList_append, hsep, count_append, count_singleton_self,
    count_eq_zero_of_not_mem ha, count_eq_zero_of_not_mem hb] at hcount
  have ha' : c ∉ a'.toList := count_eq_zero.mp (by omega)
  have hb' : c ∉ b'.toList := count_eq_zero.mp (by omega)
  have hsplit := splitOn_pair hsep ha hb
  rw [h, splitOn_pair hsep ha' hb'] at hsplit
  obtain ⟨rfl, rfl⟩ : a' = a ∧ b' = b := by simpa using hsplit
  exact ⟨rfl, rfl⟩

omit hsep

lemma endsWith_append {p : String} : endsWith (s ++ p) p := by
  unfold endsWith
  rw [String.toList_append, reverse_append, afterPrefix?_append]
  rfl

lemma intercalate_empty (xs : List (List Char)) :
    String.intercalate "" (xs.map String.ofList) = String.ofList xs.flatten := by
  induction xs with
  | nil => rfl
  | cons x xs ih =>
    cases xs with
    | nil => simp
    | cons y ys =>
      rw [map_cons, map_cons, String.intercalate_cons_cons, ← map_cons, ih]
      simp

lemma replace_append_iff {p : String} (hp : p ≠ "") (s : String) :
    replace (p ++ s) p "" = s ↔ contains s p = false := by
  have hchars : p.toList ≠ [] := by simpa using hp
  have hcut : cutChars? p.toList (p.toList ++ s.toList) = some ([], s.toList) := by
    cases hlist : p.toList with
    | nil => exact absurd hlist hchars
    | cons c cs => rw [cons_append, cutChars?, ← cons_append, afterPrefix?_append]
  unfold replace splitOn contains
  rw [intercalate_empty, String.toList_append, splitChars_of_some hchars hcut, flatten_cons,
    nil_append, Option.isSome_eq_false_iff, Option.isNone_iff_eq_none,
    ← flatten_splitChars_iff hchars, ← String.toList_inj, String.toList_ofList]

end SinkTrace.Text
