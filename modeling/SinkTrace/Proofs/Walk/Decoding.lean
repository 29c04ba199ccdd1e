import SinkTrace.Proofs.Definition.Edits
import SinkTrace.Proofs.Walk.Meaning

/-!
# Expressions whose meaning is found

What an expression means is looked for in its parts. It is found if every call in it is a call of a
name, or of what means definitions only, and a call of `str` has an argument. Other calls end the
walk.
-/

namespace SinkTrace

open Definitions List

variable {ns : String} {r : DefRef}

lemma Definitions.isSome_find?_put {ds : Definitions} (h : ds.get? ns = none)
    (hr : (ds.find? r).isSome) (kind : DefKind) (module : Option String) :
    ((ds.put ns kind module).find? r).isSome := by
  have hretired : (ds.put ns kind module).retired = ds.retired := by simp only [put, h]
  unfold find? at hr ⊢
  rw [get?_put_of_none h, hretired]
  split_ifs with hm
  · rw [hm, h] at hr
    cases Option.filter (fun d : Definition => d.revision = r.revision)
      (some { ns, kind, module }) with
    | none => exact hr
    | some d => rfl
  · exact hr

namespace Expr

/-- Whether the expression means definitions only. -/
def isDefinite : Expr → Bool
  | .call _ func _ _ => func.id? != some "str"
  | .binOp _ l _ _ => isDefinite l
  | .constant _ l _ =>
    match l with
    | .int _ | .float _ | .imag _ | .str _ => false
    | _ => true
  | .name .. | .lambda .. | .tuple .. | .dict .. | .dictComp .. | .list .. | .boolOp ..
  | .ifExp .. => false
  | _ => true

/-- Whether every call that is looked at calls a name or what is definite, and a call of `str` has
an argument, where the expression is not deeper than the number. -/
def isDecodable (lost : Table Nat Nat) : Nat → Expr → Bool
  | 0, _ => false
  | depth + 1, e =>
    match e with
    | .call loc func args _ => isDecodable lost depth func &&
      match func.id?, args.drop (lost.getD loc.mark 0) with
      | none, _ => func.isDefinite
      | some "str", [] => false
      | some "str", a :: _ => isDecodable lost depth a
      | some _, _ => true
    | .tuple _ es | .boolOp _ _ es => es.all (isDecodable lost depth)
    | .binOp _ l _ r => isDecodable lost depth l && isDecodable lost depth r
    | .attr _ v _ => isDecodable lost depth v
    | .subscript _ v index => isDecodable lost depth v && isDecodable lost depth index
    | .ifExp _ _ b o => isDecodable lost depth b && isDecodable lost depth o
    | _ => true

end Expr

namespace Walk

open Act

variable {ρ α β : Type} {s t u : Walk ρ} {attr name : String} {owners : List Meaning}

/-- The current namespace has a scope, what is bound in a scope is defined, and no definition is
from outside the package. -/
structure Ready (s : Walk ρ) : Prop where
  scope : (s.world.scopes.get? (Text.dotted s.frame.names)).isSome
  module : s.frame.module ≠ ""
  bound : ∀ ns name r, s.world.scopes.find? ns name = some r → (s.world.defs.find? r).isSome
  own : ∀ ns d, s.world.defs.get? ns = some d → d.ns = ns ∧ d.kind ≠ .external

/-- The second state is ready, at the same place, and has the definitions of the first one. -/
structure Later (s t : Walk ρ) : Prop where
  ready : Ready t
  frame : t.frame = s.frame
  found : ∀ r, (s.world.defs.find? r).isSome → (t.world.defs.find? r).isSome

lemma Ready.later (h : Ready s) : Later s s := ⟨h, rfl, fun _ => id⟩

lemma Later.trans (h : Later s t) (h' : Later t u) : Later s u :=
  ⟨h'.ready, h'.frame.trans h.frame, fun r hr => h'.found r (h.found r hr)⟩

/-- The action ends well and only reads the state. -/
abbrev Looks (s : Walk ρ) (a : Roam ρ α) : Prop := Upholds (fun _ => False) (· = s) (· = s) a

/-- The action ends well, in a later state, and what it gives is `P` there. -/
def Answers (P : Walk ρ → α → Prop) (s : Walk ρ) (a : Roam ρ α) : Prop :=
  ∃ v t, a s = (.ok v, t) ∧ Later s t ∧ P t v

section Answers

variable {P : Walk ρ → α → Prop} {Q : Walk ρ → β → Prop} {a : Roam ρ α} {f : α → Roam ρ β}

lemma Answers.bind (ha : Answers P s a) (hf : ∀ v t, Later s t → P t v → Answers Q t (f v)) :
    Answers Q s (a >>= f) := by
  obtain ⟨v, t, hrun, hst, hv⟩ := ha
  obtain ⟨w, u, hrest, htu, hw⟩ := hf v t hst hv
  exact ⟨w, u, by rw [run_bind, hrun]; exact hrest, hst.trans htu, hw⟩

lemma Ready.answers (h : Ready s) {v : α} (hv : P s v) : Answers P s (pure v) :=
  ⟨v, s, rfl, h.later, hv⟩

lemma Looks.bind_answers (ha : Looks s a) (hf : ∀ v, a s = (.ok v, s) → Answers Q s (f v)) :
    Answers Q s (a >>= f) := by
  have hend := ha s rfl
  rcases hrun : a s with ⟨e | v, t⟩
  · rw [hrun] at hend
    exact hend.elim
  · rw [hrun] at hend
    obtain rfl : t = s := hend
    obtain ⟨w, u, hrest, hw⟩ := hf v hrun
    exact ⟨w, u, by rw [run_bind, hrun]; exact hrest, hw⟩

lemma looks_of_run {v : α} (h : a s = (.ok v, s)) : Looks s a := by
  rintro t rfl
  rw [h]
  rfl

lemma answers_mapM {as : List α} (hs : Ready s)
    (h : ∀ a ∈ as, ∀ t, Later s t → Answers (fun _ _ => True) t (f a)) :
    Answers (fun _ _ => True) s (as.mapM f) := by
  induction as generalizing s with
  | nil =>
    rw [mapM_nil]
    exact hs.answers trivial
  | cons a as ih =>
    obtain ⟨ha, has⟩ := forall_mem_cons.mp h
    rw [mapM_cons]
    refine (ha s hs.later).bind fun b t hst _ => ?_
    refine (ih hst.ready fun a ha u htu => has a ha u (hst.trans htu)).bind fun _ u htu _ => ?_
    exact htu.ready.answers trivial

end Answers

/-- What is meant is a definition that is there, or it is not sure that a definition is meant. -/
def Found (sure : Bool) (s : Walk ρ) (ms : List Meaning) : Prop :=
  ∀ m ∈ ms, match m with
    | .ref r => (s.world.defs.find? r).isSome
    | _ => sure = false

variable {sure : Bool} {ms : List Meaning}

lemma Later.stays (h : Later s t) (hms : Found sure s ms) : Found sure t ms := by
  intro m hm
  have := hms m hm
  split at this
  · exact h.found _ this
  · exact this

lemma Found.mono {sure' : Bool} (h : Found sure s ms) (hle : sure = false → sure' = false) :
    Found sure' s ms := by
  intro m hm
  have := h m hm
  split at this
  · exact this
  · exact hle this

lemma found_refs {rs : List DefRef} (h : ∀ r ∈ rs, (s.world.defs.find? r).isSome) :
    Found sure s (rs.map .ref) := by
  intro m hm
  obtain ⟨r, hr, rfl⟩ := mem_map.mp hm
  exact h r hr

lemma Found.append {ns : List Meaning} (h : Found sure s ms) (h' : Found sure s ns) :
    Found sure s (ms ++ ns) := fun m hm => (mem_append.mp hm).elim (h m) (h' m)

lemma Ready.ref? (h : Ready s) (hr : s.world.defs.ref? ns = some r) :
    (s.world.defs.find? r).isSome := by
  obtain ⟨d, hd, rfl⟩ := Option.map_eq_some_iff.mp hr
  obtain ⟨rfl, -⟩ := h.own _ d hd
  rw [find?_of_current hd rfl]
  rfl

lemma Ready.ensureDef (h : Ready s) (hns : ns ≠ "") :
    Answers (fun t r => (t.world.defs.find? r).isSome) s (ensureDef ns .name) := by
  rcases @run_ensureDef _ ns s .name hns h.module rfl with ⟨r, hr, hrun⟩ | ⟨hnone, hrun⟩
  · exact ⟨r, s, hrun, h.later, h.ref? hr⟩
  · have hget := get?_put_of_none hnone .name (some s.frame.module)
    have hfound (r : DefRef) (hr : (s.world.defs.find? r).isSome) :=
      isSome_find?_put hnone hr .name (some s.frame.module)
    refine ⟨{ ns }, _, hrun, ⟨⟨h.scope, h.module, fun m name r hr => hfound r (h.bound m name r hr),
      fun m e he => ?_⟩, rfl, hfound⟩, ?_⟩
    · have he' := (hget m).symm.trans he
      split_ifs at he' with hm
      · cases he'
        exact ⟨hm.symm, nofun⟩
      · exact h.own m e he'
    · exact Option.isSome_of_eq_some (find?_of_current ((hget ns).trans (if_pos rfl)) rfl)

lemma Ready.returnOf (h : Ready s) (hr : (s.world.defs.find? r).isSome) :
    Answers (fun t ret => Found true t (ret.toList.map .ref)) s (returnOf r) := by
  obtain ⟨d, hd⟩ := Option.isSome_iff_exists.mp hr
  have hread (ns : String) : Found true s ((s.world.defs.ref? ns).toList.map .ref) :=
    found_refs fun r hr => h.ref? (Option.mem_toList.mp hr)
  have hdef? (ns : String) : Answers (fun t ret => Found true t (ret.toList.map .ref)) s
      (def? ns) :=
    ⟨_, s, rfl, h.later, hread ns⟩
  have hnew (ns : String) {f : Option DefRef → Roam ρ (Option DefRef)}
      (hnone : f none = def? d.ns) (hsome : ∀ r, f (some r) = pure (some r)) :
      Answers (fun t ret => Found true t (ret.toList.map .ref)) s (def? ns >>= f) := by
    refine (looks_of_run rfl).bind_answers fun new hrun => ?_
    cases new with
    | none => exact hnone ▸ hdef? _
    | some r => exact hsome r ▸ h.answers (Except.ok.inj (Prod.mk.inj hrun).1 ▸ hread ns)
  have hrun : definition r s = (.ok d, s) := by
    unfold definition
    rw [run_bind]
    exact congrArg (need .absent · s) hd
  unfold Walk.returnOf
  refine (looks_of_run hrun).bind_answers fun e he => ?_
  obtain rfl : d = e := Except.ok.inj (Prod.mk.inj (hrun.symm.trans he)).1
  split
  · exact hdef? _
  · exact hnew _ rfl fun _ => rfl
  · exact hnew _ rfl fun _ => rfl
  · refine (h.ensureDef (by simp [String.append_eq_empty_iff])).bind fun r t hst hr => ?_
    exact hst.ready.answers (found_refs (by simpa using hr))
  · exact h.answers (found_refs (by simp))

lemma Ready.calledMeaning (h : Ready s) {func : Expr} {args : List Expr}
    {meaning : Expr → Roam ρ (List Meaning)} {found : List Meaning}
    (hstr : func.id? = some "str" → ∃ a as, args = a :: as ∧
      ∀ t, Later s t → Answers (Found false) t (meaning a))
    (hms : Found func.id?.isNone s ms) (hfound : Found (func.id? != some "str") s found) :
    Answers (Found (func.id? != some "str")) s (calledMeaning func args meaning ms found) := by
  induction ms generalizing s found with
  | nil => exact h.answers hfound
  | cons m ms ih =>
    obtain ⟨hm, hrest⟩ := forall_mem_cons.mp hms
    cases m with
    | ref r =>
      refine (h.returnOf hm).bind fun _ t hst hret => ?_
      refine ih hst.ready (fun hid => ?_) (hst.stays hrest)
        ((hst.stays hfound).append (hret.mono nofun))
      obtain ⟨a, as, hargs, ha⟩ := hstr hid
      exact ⟨a, as, hargs, fun u htu => ha u (hst.trans htu)⟩
    | _ =>
      unfold Walk.calledMeaning
      split
      · next hid => rw [hid] at hm; cases hm
      · next hid =>
        obtain ⟨a, as, hargs, -⟩ := hstr hid
        cases hargs
      · next hid =>
        obtain ⟨a, as, hargs, ha⟩ := hstr hid
        cases hargs
        obtain ⟨v, t, hrun, hst, hv⟩ := ha s h.later
        exact ⟨v, t, hrun, hst, by rw [hid]; exact hv⟩
      · exact ih h hstr hrest hfound

/-! ### Attributes and elements -/

lemma looks_world {f : World → Roam ρ α} (h : Looks s (f s.world)) : Looks s (getWorld >>= f) := by
  rintro t rfl
  exact h t rfl

lemma looks_closureOf : Looks s (closureOf ns) := fun _ ht => ht

lemma looks_closureOrSelf : Looks s (closureOrSelf ns) := fun _ ht => ht

lemma Ready.methodsOf (h : Ready s) {cls method : String} : Looks s (methodsOf cls method) := by
  refine looks_world ?_
  split
  · exact .pure
  · split
    · exact looks_closureOrSelf
    · rw [if_neg]
      · exact .pure
      · simp only [any_eq_true, not_exists, not_and]
        intro item _ hext
        cases hget : s.world.defs.get? item with
        | none => simp [hget] at hext
        | some d => exact (h.own item d hget).2 (by simpa [hget, Definition.isExternal] using hext)

lemma Ready.attrOf (h : Ready s) {owner : String} : Looks s (attrOf attr owner) := by
  refine looks_world ?_
  split
  · exact .pure
  · next d hd =>
    split
    · exact h.methodsOf
    · exact h.methodsOf
    · exact .pure
    · exact .pure
    · next hkind => exact absurd hkind (h.own owner d hd).2
    · exact .pure

lemma Ready.attrNames (h : Ready s) : Looks s (attrNames owners attr) := by
  refine (Upholds.foldlM (fun names m _ => ?_)).bind fun _ => ?_
  · split
    · exact looks_closureOrSelf.bind fun _ => .pure
    · exact .pure
  · refine (Upholds.foldlM (fun all o _ => ?_)).bind fun _ =>
      .foldlM (fun _ o _ => h.attrOf.bind fun _ => .pure)
    exact looks_closureOf.bind fun _ => .pure

lemma looks_elementNames {indices : List Meaning} : Looks s (elementNames owners indices) := by
  refine (Upholds.foldlM (fun names m _ => ?_)).bind fun _ => ?_
  · split
    · exact looks_closureOf.bind fun _ => .pure
    · exact .pure
  · refine (Upholds.foldlM (fun keys m _ => ?_)).bind fun _ => .ite ?_ .pure
    · refine Upholds.bind ?_ fun _ => .pure
      unfold keysOf
      split
      · exact fun _ ht => ht
      · exact .pure
      · exact .pure
      · exact .pure
    · split
      · exact .pure
      · exact .pure

section Ready

variable (h : Ready s)

include h

lemma Ready.refsOf {names : Names} : Answers (Found true) s (refsOf names) := by
  refine ⟨_, s, rfl, h.later, found_refs fun r hr => ?_⟩
  obtain ⟨n, -, hn⟩ := mem_filterMap.mp hr
  exact h.ref? hn

/-! ### Expressions -/

lemma Ready.scopeDef? : Answers (fun t r => Found true t (r.toList.map .ref)) s (scopeDef? name) :=
  ⟨_, s, rfl, h.later, found_refs fun r hr => h.bound _ _ r (Option.mem_toList.mp hr)⟩

lemma Ready.boundName : Answers (Found false) s
    (do return [Meaning.ofRef? (← Walk.scopeDef? name)]) := by
  refine h.scopeDef?.bind fun r t hst hr => hst.ready.answers ?_
  cases r with
  | none => exact forall_mem_singleton.mpr rfl
  | some r => exact hr.mono nofun

lemma Ready.parts {es : List Expr} {meaning : Expr → Roam ρ (List Meaning)}
    (hes : ∀ e ∈ es, ∀ t, Later s t → ∃ sure, Answers (Found sure) t (meaning e)) :
    Answers (Found false) s (do return (← es.mapM meaning).map Meaning.group) := by
  refine (answers_mapM h fun e he t hst => ?_).bind fun _ t hst _ =>
    hst.ready.answers fun m hm => ?_
  · obtain ⟨_, v, u, hrun, htu, -⟩ := hes e he t hst
    exact ⟨v, u, hrun, htu, trivial⟩
  · obtain ⟨ns, -, rfl⟩ := mem_map.mp hm
    rfl

lemma Ready.meaningWithin {fuel : Nat} {e : Expr} (he : e.isDecodable s.frame.lost fuel = true) :
    Answers (Found e.isDefinite) s (meaningWithin fuel e) := by
  induction fuel generalizing s e with
  | zero => cases he
  | succ fuel ih =>
    have hagain {t : Walk ρ} (hst : Later s t) {e : Expr}
        (he : e.isDecodable s.frame.lost fuel = true) :
        Answers (Found e.isDefinite) t (Walk.meaningWithin fuel e) :=
      ih hst.ready (hst.frame ▸ he)
    have hparts (es : List Expr) (hes : es.all (Expr.isDecodable s.frame.lost fuel) = true) :=
      h.parts fun e he t hst => ⟨_, hagain hst (all_eq_true.mp hes e he)⟩
    have hsome (es : List Expr) (hes : es.all (Expr.isDecodable s.frame.lost fuel) = true) :=
      (hparts es hes).bind (Q := Found false) fun ms t hst hms =>
        hst.ready.answers (v := ms.filter Meaning.isSome) fun m hm => hms m (mem_filter.mp hm).1
    unfold Walk.meaningWithin
    unfold Expr.isDecodable at he
    cases e with
    | name loc id => exact h.boundName
    | call loc func args keywords =>
      obtain ⟨hfunc, hargs⟩ := Bool.and_eq_true_iff.mp he
      refine (looks_of_run rfl).bind_answers fun left hleft => ?_
      obtain rfl : args.drop (s.frame.lost.getD loc.mark 0) = left :=
        Except.ok.inj (Prod.mk.inj hleft).1
      refine (hagain h.later hfunc).bind fun ms t hst hms => ?_
      refine hst.ready.calledMeaning (fun hid => ?_) (hms.mono fun hdef => ?_) (forall_mem_nil _)
      · rw [hid] at hargs
        cases hdrop : args.drop (s.frame.lost.getD loc.mark 0) with
        | nil => simp [hdrop] at hargs
        | cons a as =>
          refine ⟨a, as, rfl, fun u htu => ?_⟩
          obtain ⟨v, w, hrun, huw, hv⟩ := hagain (hst.trans htu) (by simpa [hdrop] using hargs)
          exact ⟨v, w, hrun, huw, hv.mono fun _ => rfl⟩
      · cases hid : func.id? with
        | none => simp [hid, hdef] at hargs
        | some id => rfl
    | lambda loc params body =>
      obtain ⟨scope, hscope⟩ := Option.isSome_iff_exists.mp h.scope
      refine (looks_of_run rfl).bind_answers fun ns hns => ?_
      obtain rfl : Text.dotted s.frame.names = ns := Except.ok.inj (Prod.mk.inj hns).1
      refine Looks.bind_answers (a := getWorld) (fun _ ht => ht) fun w hw => ?_
      obtain rfl : s.world = w := Except.ok.inj (Prod.mk.inj hw).1
      rw [hscope]
      exact h.boundName
    | tuple loc es => exact hparts es he
    | binOp loc l op r =>
      obtain ⟨hl, hr⟩ := Bool.and_eq_true_iff.mp he
      refine (hagain h.later hl).bind fun ms t hst hms => (hagain hst hr).bind fun _ u htu _ => ?_
      exact htu.ready.answers (htu.stays hms)
    | attr loc v a =>
      refine Looks.bind_answers (a := closures) (fun _ ht => ht) fun c _ => ?_
      split
      · exact h.answers (forall_mem_nil _)
      · refine (hagain h.later he).bind fun ms t hst _ => ?_
        exact hst.ready.attrNames.bind_answers fun names _ => hst.ready.refsOf
    | constant loc l marked =>
      cases l with
      | int | float | imag | str => exact h.answers (forall_mem_singleton.mpr rfl)
      | _ => exact h.answers (forall_mem_nil _)
    | dict loc items => exact h.boundName
    | dictComp loc k v gens => exact h.boundName
    | list loc es => exact h.boundName
    | subscript loc v index =>
      obtain ⟨hv, hindex⟩ := Bool.and_eq_true_iff.mp he
      have hrest {t : Walk ρ} (hst : Later s t) (indices : List Meaning) : Answers (Found true) t
          (do Walk.refsOf (← elementNames (← Walk.meaningWithin fuel v) indices)) :=
        (hagain hst hv).bind fun _ u htu _ =>
          looks_elementNames.bind_answers fun _ _ => htu.ready.refsOf
      refine Looks.bind_answers (a := closures) (fun _ ht => ht) fun c _ => ?_
      split
      · exact h.answers (forall_mem_nil _)
      · split
        · split
          · exact Looks.bind_answers .pure fun indices _ => hrest h.later indices
          · exact (hagain h.later hindex).bind fun indices t hst _ => hrest hst indices
        · exact (hagain h.later hindex).bind fun indices t hst _ => hrest hst indices
    | starred loc v =>
      cases v with
      | name loc id => exact h.scopeDef?.bind fun r t hst hr => hst.ready.answers hr
      | _ => exact h.answers (forall_mem_nil _)
    | boolOp loc op es => exact hsome es he
    | ifExp loc test b o => exact hsome [b, o] (by simpa using he)
    | _ => exact h.answers (forall_mem_nil _)

end Ready

/-- Where what is bound is defined and no definition is from outside the package, the meaning of a
decodable expression is found. -/
theorem meaning_found (h : Ready s) {e : Expr} (he : e.isDecodable s.frame.lost depthBound = true) :
    ∃ ms t, meaning e s = (.ok ms, t) ∧ Later s t ∧ Found e.isDefinite t ms := h.meaningWithin he

/-- A walk at the top of a module with a variable `x`. -/
def topLevel : Walk Unit where
  world := {
    scopes := ⟨[("m", { parent := none, defs := ⟨[("x", { ns := "m.x" })]⟩ })]⟩
    defs := { current := ⟨[("m.x", { ns := "m.x", kind := .name, module := some "m" })]⟩ } }
  frame := { file := "m.py", module := "m", names := ["m"] }
  own := ()

def callOf (name : String) (args : List Expr) : Expr := .call default (.name default name) args []

theorem meaning_of_text_found :
    ∃ ms t, meaning (callOf "str" [callOf "x" []]) topLevel = (.ok ms, t) := by
  have hready : Ready topLevel := by
    refine ⟨rfl, by decide, fun ns name r hr => ?_, fun ns d hd => ?_⟩
    · by_cases hns : "m" = ns
      · by_cases hname : "x" = name
        · subst hns hname
          cases hr
          rfl
        · simp [topLevel, Scopes.find?, Scopes.find?.search, Table.get?, Table.size, hns,
            hname] at hr
      · simp [topLevel, Scopes.find?, Scopes.find?.search, Table.get?, Table.size, hns] at hr
    · obtain ⟨e, he, rfl⟩ := Option.map_eq_some_iff.mp hd
      obtain rfl := List.mem_singleton.mp (List.mem_of_find?_eq_some he)
      exact ⟨by simpa using List.find?_some he, by simp⟩
  obtain ⟨ms, t, hrun, -⟩ := meaning_found hready (e := callOf "str" [callOf "x" []]) rfl
  exact ⟨ms, t, hrun⟩

/-- A call of `str` without an argument has no meaning. -/
theorem meaning_of_no_text : (meaning (callOf "str" []) topLevel).1 = .error .outOfRange := by rfl

end Walk

end SinkTrace
