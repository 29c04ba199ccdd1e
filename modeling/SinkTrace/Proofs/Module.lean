import SinkTrace.Module
import SinkTrace.Proofs.Data.Table

/-!
# What modules list

The modules of the package list their functions and classes. Modules get new entries, and a module
that is made has not been there before, so what is listed stays listed.
-/

namespace SinkTrace

namespace Modules

variable {f : ModuleInfo → ModuleInfo} {file : Option String} {n : String}

def Lists (ms : Modules) (m x : String) : Prop :=
  ∃ info, ms.inner.get? m = some info ∧ info.methods.contains x = true

instance (ms : Modules) (m x : String) : Decidable (ms.Lists m x) :=
  decidable_of_iff ((ms.inner.get? m).any (·.methods.contains x) = true) (Option.any_eq_true _ _)

/-- What is listed in `ms` is listed in `ms'`, and `ms'` knows no more modules outside the
package. -/
structure Expands (ms ms' : Modules) : Prop where
  lists : ∀ m x, ms.Lists m x → ms'.Lists m x
  outer : ∀ m, ms'.outer.contains m = true → ms.outer.contains m = true

variable {ms ms' ms'' : Modules}

lemma Expands.refl : Expands ms ms := ⟨fun _ _ h => h, fun _ h => h⟩

lemma lists_modify (hf : ∀ info x, info.methods.contains x → (f info).methods.contains x)
    {m x : String} (h : ms.Lists m x) : Lists { ms with inner := ms.inner.modify n f } m x := by
  obtain ⟨info, hinfo, hx⟩ := h
  unfold Lists
  rw [Table.get?_modify]
  split_ifs with hm
  · subst hm
    exact ⟨f info, congrArg (Option.map f) hinfo, hf info x hx⟩
  · exact ⟨info, hinfo, hx⟩

@[simp] lemma contains_outer_adjust (ms : Modules) (n m : String) (f : ModuleInfo → ModuleInfo) :
    (ms.adjust n f).outer.contains m = ms.outer.contains m := by
  unfold adjust
  split_ifs <;> simp

lemma expands_adjust (ms : Modules)
    (hf : ∀ info x, info.methods.contains x → (f info).methods.contains x) :
    Expands ms (ms.adjust n f) := by
  refine ⟨fun m x hx => ?_, fun m hm => by simpa using hm⟩
  unfold adjust
  split_ifs
  · exact lists_modify hf hx
  · exact hx

lemma lists_create (hn : ms.inner.get? n = none) {isOuter : Bool} {m x : String}
    (h : ms.Lists m x) :
    (ms.create n file isOuter).Lists m x := by
  obtain ⟨info, hinfo, hx⟩ := h
  have hne : m ≠ n := fun hm => by simp [hm, hn] at hinfo
  unfold Lists create
  split_ifs
  · exact ⟨info, hinfo, hx⟩
  · rw [Table.get?_set, if_neg hne]
    exact ⟨info, hinfo, hx⟩

lemma inner_of_get?_none (hn : ms.get? n = none) : ms.inner.get? n = none := by
  unfold get? at hn
  cases h : ms.inner.get? n with
  | none => rfl
  | some info => simp [h] at hn

lemma expands_create (hn : ms.get? n = none) : Expands ms (ms.create n file false) :=
  ⟨fun _ _ => lists_create (inner_of_get?_none hn), fun _ hm => hm⟩

end Modules

namespace ModuleInfo

lemma contains_addMethod (info : ModuleInfo) (method : String) (span : Span) {x : String}
    (h : x = method ∨ info.methods.contains x) :
    (info.addMethod method span).methods.contains x := Table.contains_setNew h

end ModuleInfo

lemma Modules.lists_addMethod {ms : Modules} {m : String} (h : ms.inner.contains m)
    {x : String} {span : Span} : (ms.adjust m (·.addMethod x span)).Lists m x := by
  obtain ⟨info, hinfo⟩ := Table.contains_iff.mp h
  unfold adjust
  rw [if_pos h]
  refine ⟨info.addMethod x span, ?_, info.contains_addMethod x span (.inl rfl)⟩
  rw [Table.get?_modify, if_pos rfl, hinfo]
  rfl

end SinkTrace
