import SinkTrace.Proofs.Act
import SinkTrace.Proofs.Data.Table
import SinkTrace.Walk.Calls

/-!
# What looking at expressions changes

To find out what an expression means, or which names a call may call, a walk reads the world. It
changes one thing only: a variable that is called gets a definition for what it returns. `Coins` is
this step.
-/

namespace SinkTrace

lemma eq_some_of_given? {name : Option String} {n : String} (h : given? name = some n) :
    name = some n := by
  unfold given? at h
  split at h
  · cases h
  · exact h

namespace Walk

open Relation Act

variable {ρ : Type} {attr name ns : String} {c : CallForm} {names : Names} {owners : List Meaning}
  {r : DefRef} {index value : Expr}

/-! ### Reading -/

lemma reads_getWorld : Reads (getWorld : Roam ρ World) := fun _ => .refl

lemma reads_getFrame : Reads (getFrame : Roam ρ Frame) := fun _ => .refl

lemma reads_getOwn : Reads (getOwn : Roam ρ ρ) := fun _ => .refl

lemma reads_currentNs : Reads (currentNs : Roam ρ String) := fun _ => .refl

lemma reads_currentMethod : Reads (currentMethod : Roam ρ String) := fun _ => .refl

lemma reads_moduleName : Reads (moduleName : Roam ρ String) := fun _ => .refl

lemma reads_leftOf {β : Type} {loc : Loc} {items : List β} :
    Reads (leftOf loc items : Roam ρ (List β)) := fun _ => .refl

lemma reads_def? : Reads (def? ns : Roam ρ (Option DefRef)) := fun _ => .refl

lemma reads_definition : Reads (definition r : Roam ρ Definition) :=
  reads_getWorld.bind fun _ => .need

lemma reads_kindOf : Reads (kindOf r : Roam ρ DefKind) := reads_definition.bind_pure

lemma reads_scopeDef? : Reads (scopeDef? name : Roam ρ (Option DefRef)) := fun _ => .refl

lemma reads_closures : Reads (closures : Roam ρ NameTable) := fun _ => .refl

lemma reads_closureOf : Reads (closureOf ns : Roam ρ Names) := fun _ => .refl

lemma reads_closureOrSelf : Reads (closureOrSelf ns : Roam ρ Names) := fun _ => .refl

lemma reads_methodsOf {cls method : String} : Reads (methodsOf cls method : Roam ρ Names) := by
  refine reads_getWorld.bind fun w => ?_
  split
  · exact .pure
  · split
    · exact reads_closureOrSelf
    · exact .or_pure .throw

lemma reads_ownerNames : Reads (ownerNames owners : Roam ρ Names) := by
  refine .foldlM (fun _ m _ => ?_) _
  split
  · exact reads_closureOrSelf.bind_pure
  · exact .pure

lemma reads_attrOf {owner : String} : Reads (attrOf attr owner : Roam ρ Names) := by
  refine reads_getWorld.bind fun w => ?_
  split
  · exact .pure
  · split
    · exact reads_methodsOf
    · exact reads_methodsOf
    · exact .pure
    · exact .pure
    · refine .pure_or (reads_def?.bind fun r => ?_)
      exact Leads.throw.when .pure
    · exact .pure

lemma reads_attrNames : Reads (attrNames owners attr : Roam ρ Names) := by
  refine reads_ownerNames.bind fun _ => ?_
  refine (Leads.foldlM (fun all o _ => ?_) _).bind fun _ => .foldlM (fun _ o _ => ?_) _
  · exact reads_closureOf.bind_pure
  · exact reads_attrOf.bind_pure

lemma reads_keysOf {index : Meaning} : Reads (keysOf index : Roam ρ Names) := by
  unfold keysOf
  split
  · exact reads_getWorld.bind fun w => reads_closureOf.bind_pure
  · exact .pure
  · exact .pure
  · exact .pure

lemma reads_elementNames {indices : List Meaning} :
    Reads (elementNames owners indices : Roam ρ Names) := by
  refine (Leads.foldlM (fun names m _ => ?_) _).bind fun _ => ?_
  · split
    · exact reads_closureOf.bind_pure
    · exact .pure
  · refine (Leads.foldlM (fun keys m _ => ?_) _).bind fun _ => .or_pure ?_
    · exact reads_keysOf.bind_pure
    · split
      · exact .pure
      · exact .pure

lemma reads_refsOf : Reads (refsOf names : Roam ρ (List Meaning)) := fun _ => .refl

lemma run_ensureDef {s : Walk ρ} {kind : DefKind} (hns : ns ≠ "") (hmodule : s.frame.module ≠ "")
    (hkind : (DefKind.ofTag kind.tag).isPlain = true) :
    (∃ r, s.world.defs.ref? ns = some r ∧ ensureDef ns kind s = (.ok r, s)) ∨
      s.world.defs.get? ns = none ∧ ensureDef ns kind s = (.ok { ns },
        { s with
          world := s.world.mapDefs (·.put ns (.ofTag kind.tag) (some s.frame.module)) }) := by
  have hdef : def? ns s = (.ok (s.world.defs.ref? ns), s) := rfl
  rw [ensureDef, run_bind, hdef]
  cases href : s.world.defs.ref? ns with
  | some r => exact .inl ⟨r, rfl, rfl⟩
  | none =>
    have hnone : s.world.defs.get? ns = none := Option.map_eq_none_iff.mp href
    have hnew : s.world.defs.contains ns = false := Table.not_contains_iff.mpr hnone
    have hgiven : given? (some s.frame.module) ≠ none := by simp [given?, hmodule]
    have hcreate : Definitions.create ns kind.tag (some s.frame.module) s.world.defs
        = (.ok { ns }, s.world.defs.put ns (.ofTag kind.tag) (some s.frame.module)) := by
      simp [Definitions.create, run_bind, run_map, hns, hkind, hnew, hgiven]
    refine .inr ⟨hnone, ?_⟩
    change onDefs (Definitions.create ns kind.tag (some s.frame.module)) s = _
    simp only [onDefs, onWorld, World.onDefs, zoom, hcreate, World.mapDefs]

/-! ### Expressions -/

/-- A definition is made for what a variable returns. -/
inductive Coins (s : Walk ρ) : Walk ρ → Prop
  | coin (ns : String) : Coins s (createDef ns .name s).2

lemma leads_ensureDef : Leads Coins (ensureDef ns .name : Roam ρ DefRef) := by
  refine reads_def?.next fun r => ?_
  split
  · exact .pure
  · exact fun s => .single (.coin ns)

lemma leads_returnOf : Leads Coins (returnOf r : Roam ρ (Option DefRef)) := by
  refine reads_definition.next fun d => ?_
  split
  · exact reads_def?.leads
  · refine reads_def?.next fun new => ?_
    split
    · exact .pure
    · exact reads_def?.leads
  · refine reads_def?.next fun _ => ?_
    split
    · exact .pure
    · exact reads_def?.leads
  · exact leads_ensureDef.bind_pure
  · exact .pure

lemma leads_calledMeaning {func : Expr} {args : List Expr}
    {meaning : Expr → Roam ρ (List Meaning)} (hm : ∀ e, Leads Coins (meaning e))
    {ms : List Meaning} (found : List Meaning) :
    Leads Coins (calledMeaning func args meaning ms found) := by
  induction ms generalizing found with
  | nil => exact .pure
  | cons m ms ih =>
    cases m with
    | ref r => exact leads_returnOf.bind fun _ => ih _
    | _ =>
      unfold calledMeaning
      split
      · exact .throw
      · exact .throw
      · exact hm _
      · exact ih _

lemma leads_meaningWithin {fuel : Nat} (e : Expr) :
    Leads Coins (meaningWithin fuel e : Roam ρ (List Meaning)) := by
  induction fuel generalizing e with
  | zero => exact .throw
  | succ fuel ih =>
    have hbound (name : String) : Leads Coins
        (do return [Meaning.ofRef? (← scopeDef? name)] : Roam ρ (List Meaning)) :=
      reads_scopeDef?.leads.bind_pure
    have hparts (es : List Expr) : Leads Coins
        (do return (← es.mapM (meaningWithin fuel)).map Meaning.group : Roam ρ _) :=
      (Leads.mapM fun e _ => ih e).bind_pure
    unfold meaningWithin
    split
    · exact hbound _
    · exact reads_leftOf.next fun _ => (ih _).bind fun ms =>
        leads_calledMeaning ih _
    · refine reads_currentNs.next fun _ => reads_getWorld.next fun w => ?_
      exact Leads.need.bind fun s => hbound _
    · exact hparts _
    · exact (ih _).bind fun _ => (ih _).bind_pure
    · refine reads_closures.next fun c => .pure_or ((ih _).bind fun _ => ?_)
      exact reads_attrNames.next fun _ => reads_refsOf.leads
    · split
      · exact .pure
      · exact .pure
      · exact .pure
      · exact .pure
      · exact .pure
    · exact hbound _
    · exact hbound _
    · exact hbound _
    · refine reads_closures.next fun c => .pure_or ?_
      have hrest (indices : List Meaning) (v : Expr) : Leads Coins
          (do refsOf (← elementNames (← meaningWithin fuel v) indices) : Roam ρ _) :=
        (ih v).bind fun _ => reads_elementNames.next fun _ => reads_refsOf.leads
      split
      · split
        · exact Leads.pure.bind fun _ => hrest _ _
        · exact (ih _).bind fun _ => hrest _ _
      · exact (ih _).bind fun _ => hrest _ _
    · exact reads_scopeDef?.leads.bind_pure
    · exact (hparts _).bind_pure
    · exact (hparts _).bind_pure
    · exact .pure

lemma leads_meaning {e : Expr} : Leads Coins (meaning e : Roam ρ (List Meaning)) :=
  leads_meaningWithin e

lemma leads_attributeNames : Leads Coins (attributeNames value attr : Roam ρ Names) := by
  refine reads_closures.next fun c => .pure_or ?_
  exact leads_meaning.bind fun _ => reads_attrNames.leads

lemma leads_subscriptNames : Leads Coins (subscriptNames value index : Roam ρ Names) := by
  refine reads_closures.next fun c => .pure_or ?_
  have hrest (indices : List Meaning) : Leads Coins
      (do elementNames (← meaning value) indices : Roam ρ Names) :=
    leads_meaning.bind fun _ => reads_elementNames.leads
  split
  · exact Leads.pure.bind fun _ => hrest _
  · exact leads_meaning.bind fun _ => hrest _

/-! ### Called names -/

lemma reads_argsOf : Reads (argsOf c : Roam ρ (List Expr)) := by
  refine Leads.need.bind fun _ => ?_
  split
  · exact reads_leftOf
  · exact .pure

lemma reads_moduleAndPart : Reads (moduleAndPart ns : Roam ρ (String × String)) :=
  reads_getWorld.bind fun _ => Leads.need.bind fun _ => Leads.need.bind fun _ =>
    .pure

lemma reads_leadsToSink {module part : String} : Reads (leadsToSink module part : Roam ρ Bool) := by
  refine reads_getWorld.bind fun w => ?_
  split
  · exact .pure
  · exact .pure

lemma reads_sinkIn?_search {names : List String} :
    Reads (sinkIn?.search names : Roam ρ (Option String)) := by
  induction names with
  | nil => exact .pure
  | cons n ns ih =>
    refine reads_moduleAndPart.bind fun _ => reads_leadsToSink.bind fun b => ?_
    exact .pure_or ih

lemma reads_sinkIn? : Reads (sinkIn? name : Roam ρ (Option String)) :=
  reads_closureOf.bind fun _ => reads_sinkIn?_search

lemma leads_contextTarget : Leads Coins (contextTarget c names : Roam ρ Names) := by
  refine .pure_or (reads_argsOf.next fun _ => ?_)
  split
  · exact .pure
  · refine leads_meaning.bind fun _ => .foldlM (fun _ m _ => ?_) _
    split
    · exact reads_sinkIn?.leads.bind_pure
    · exact reads_sinkIn?.leads.bind_pure
    · exact .pure

lemma leads_elementCallNames : Leads Coins (elementCallNames value index : Roam ρ Names) := by
  refine leads_subscriptNames.bind fun _ => .foldlM (fun names n _ => ?_) _
  refine reads_closureOf.next fun c => reads_getWorld.next fun w => ?_
  split
  · refine .ite (.foldlM (fun _ p _ => ?_) _) .pure
    exact reads_methodsOf.leads.bind_pure
  · exact .pure

lemma leads_callNames : Leads Coins (callNames c : Roam ρ Names) := by
  unfold callNames
  split
  · refine reads_scopeDef?.next fun r => ?_
    split
    · exact .pure
    · refine reads_closureOf.next fun names => reads_kindOf.next fun k => ?_
      refine .ite (.foldlM (fun _ p _ => ?_) _) .pure
      exact reads_methodsOf.leads.bind_pure
  · refine reads_getFrame.next fun f => .foldlM (fun names n _ => ?_) _
    refine reads_closureOf.next fun _ => .foldlM (fun names _ _ => ?_) _
    exact reads_getWorld.next fun w => Leads.need.bind_pure
  · exact leads_attributeNames.bind fun _ => leads_contextTarget
  · exact leads_elementCallNames
  · exact .pure

end Walk

end SinkTrace
