import SinkTrace.Definition.Closure
import SinkTrace.Proofs.Definition.Edits

/-!
# Runs of operations on a definition table

A run is a list of operations on a table that starts empty. An operation that stops does not end the
run: what it changed before it stopped stays changed. The operations other than the two closures are
chains of elementary edits.
-/

namespace SinkTrace

open Act NamePointer

namespace Definitions

open Relation

variable {arg module name : Option String} {ds : Definitions} {l pos : Literal} {ns target : String}
  {r : DefRef} {replace : Bool} {v : ArgValue} {α : Type}

/-! ### Making definitions -/

lemma create_cases (ds : Definitions) (ns tag : String) (module : Option String) :
    (∃ e, create ns tag module ds = (.error e, ds)) ∨ (ds.get? ns = none ∧
        create ns tag module ds = (.ok { ns }, ds.put ns (.ofTag tag) module)) := by
  unfold create
  simp only [run_bind, run_get, run_throw, run_modify, run_pure, run_ite]
  split_ifs with h₁ h₂ h₃ h₄
  · exact .inl ⟨_, rfl⟩
  · exact .inl ⟨_, rfl⟩
  · exact .inl ⟨_, rfl⟩
  · exact .inl ⟨_, rfl⟩
  · exact .inr ⟨Table.not_contains_iff.mp (Bool.eq_false_iff.mpr h₃), rfl⟩

lemma leads_create (ns tag : String) (module : Option String) :
    Leads (Edit false) (create ns tag module) := by
  intro ds
  rcases create_cases ds ns tag module with ⟨e, h⟩ | ⟨hnone, h⟩
  · rw [h]
  · rw [h]
    exact .single (Edit.put _ _ (.inr hnone))

lemma leads_classDef {parent name : String} : Leads (Edit false) (classDef parent name module) := by
  unfold classDef
  refine Leads.get.bind fun ds => ?_
  cases ds.ref? (Text.dotted [parent, name]) with
  | some r => exact .pure
  | none => exact leads_create _ _ module

lemma leads_function {parent name : String} : Leads (Edit false) (function parent name module) := by
  -- what is done about the result of the function does not depend on how the function was found
  have hret (r : DefRef) : Leads (Edit false)
      (ensureReturn (returnNs (Text.dotted [parent, name])) r) := by
    refine Leads.get.bind fun ds => ?_
    split_ifs
    · exact .pure
    · refine Leads.get.bind fun ds => (leads_create _ _ _).bind fun _ => ?_
      refine (Leads.modify fun ds => ?_).bind fun _ => .pure
      exact .single (edit_addOneTo .taints ds r _)
  unfold function
  refine Leads.get.bind fun ds => ?_
  cases ds.ref? (Text.dotted [parent, name]) with
  | some r => exact Leads.pure.bind hret
  | none =>
    refine (leads_create _ _ module).bind fun r => ?_
    refine (Leads.modify fun _ => ?_).bind fun _ => Leads.pure.bind hret
    exact .single (edit_adjust_quiet fun d _ _ => d.quiet_decorators)

/-! ### Arguments -/

/-- The action may change the arguments of a name pointer, but not what it points to. -/
def Refitting {α : Type} (a : Act NamePointer α) : Prop := ∀ p : NamePointer, p.Refits (a p).2

lemma refitting_addArg : Refitting (addArg name v) := by
  intro p
  have htouch := p.refits_touch name
  cases v with
  | name n => exact htouch.trans (p.touch name).refits_addArgSet
  | set s => exact htouch.trans (p.touch name).refits_addArgSet
  | neither => exact htouch

lemma refitting_addLitArg : Refitting (modify (·.addLitArg name l)) := fun p => p.refits_addArgSet

lemma refitting_checkPos {f : Position → Act NamePointer Unit} (h : ∀ pos, Refitting (f pos)) :
    Refitting (checkPos pos >>= f) := by
  intro p
  unfold checkPos
  cases Position.read pos with
  | error e => exact .refl
  | ok pos => exact h pos p

lemma refitting_addPosArg : Refitting (addPosArg pos name v) := by
  refine refitting_checkPos fun _ p => ?_
  simp only [run_bind, run_get, run_modify]
  exact (refits_setPos _).trans (refitting_addArg _)

lemma refitting_addPosLitArg : Refitting (addPosLitArg pos name l) := by
  refine refitting_checkPos fun _ p => ?_
  exact (refits_setPos _).trans (refits_addArgSet _)

lemma onName_state (r : DefRef) (a : Act NamePointer α) (ds : Definitions) :
    (onName r a ds).2 = ds ∨ ∃ d, ds.find? r = some d ∧
      (onName r a ds).2 = ds.adjust r fun d' => { d' with name := (a d.name).2 } := by
  unfold onName
  simp only [run_bind, run_get]
  cases ds.find? r with
  | none => exact .inl rfl
  | some d =>
    refine .inr ⟨d, rfl, ?_⟩
    dsimp only
    rcases a d.name with ⟨_ | _, p⟩ <;> rfl

lemma leads_onName {a : Act NamePointer α} (ha : Refitting a) :
    Leads (Edit false) (onName r a) := by
  intro ds
  rcases onName_state r a ds with h | ⟨d, hf, h⟩
  · rw [h]
  · rw [h]
    refine .single (edit_adjust_quiet fun d' hd' hr' => ?_)
    obtain rfl := Option.some.inj ((find?_of_current hd' hr').symm.trans hf)
    exact d'.quiet_name (ha d'.name)

/-! ### Merging and assigning -/

lemma edits_merge {e : Definition} : Edits replace ds (ds.merge r e) := by
  unfold merge
  refine .tail ?_ (Edit.taints r e.taints)
  refine .tail ?_ (edit_adjust_quiet fun d _ _ =>
    d.quiet_name d.name.refits_mergeArgs)
  refine .tail ?_ (Edit.names r e.name.points)
  exact .single (edit_adjust_quiet fun d _ _ => d.quiet_lits (Scalars.subset_union _))

lemma edits_put (ds : Definitions) (ns : String) (kind : DefKind) (module : Option String) :
    Edits true ds (ds.put ns kind module) := .single (Edit.put kind module (.inl rfl))

lemma edits_mergeFound {ds₀ : Definitions} (h : Edits replace ds₀ ds) (r new : DefRef) :
    Edits replace ds₀ (match ds.find? r with | some src => ds.merge new src | none => ds) := by
  cases ds.find? r with
  | none => exact h
  | some src => exact h.trans edits_merge

lemma edits_assign : Edits true ds (ds.assign ns r module) := by
  unfold assign
  cases ds.find? r with
  | none => exact .refl
  | some src =>
    dsimp only
    have hnew := edits_put ds ns src.kind module
    generalize ds.put ns src.kind module = ds₁ at hnew ⊢
    have hmerged := edits_mergeFound hnew r (((ds₁.get? ns).map Definition.ref).getD { ns })
    split_ifs
    · exact hmerged
    · refine .tail ?_ (edit_addOneTo .taints _ _ _)
      refine .tail ?_ (edit_addOneTo .taints _ _ _)
      refine .tail ?_ (edit_addOneTo .taints _ _ _)
      exact (hmerged.trans (edits_put _ _ _ _)).tail (edit_addOneTo .names _ _ _)
    · refine .tail ?_ (edit_addOneTo .taints _ _ _)
      refine .tail ?_ (edit_addOneTo .taints _ _ _)
      refine .tail ?_ (edit_addOneTo .taints _ _ _)
      refine .trans ?_ (edits_put _ _ _ _)
      exact (hmerged.trans (edits_put _ _ _ _)).tail (edit_addOneTo .names _ _ _)

/-! ### Completion -/

lemma edits_foldl {β : Type} {f : β → α → β} (table : β → Definitions)
    (hf : ∀ b a, Edits replace (table b) (table (f b a))) (as : List α) (b : β) :
    Edits replace (table b) (table (as.foldl f b)) := by
  induction as generalizing b with
  | nil => exact .refl
  | cons a as ih => exact (hf b a).trans (ih (f b a))

lemma edits_passItem (s : Definitions × Bool) (item : String) :
    Edits false s.1 (passItem target s item).1 := by
  unfold passItem
  cases s.1.get? target with
  | none => exact .refl
  | some t =>
    dsimp only
    split_ifs
    · exact .refl
    · exact .single (edit_addOneTo .names s.1 t.ref (.str item))

lemma edits_passTarget (s : Definitions × Bool) (target : String) :
    Edits false s.1 (passTarget ns arg s target).1 := by
  unfold passTarget
  split_ifs
  · exact .refl
  · refine .head (Edit.quiet fun d _ => ?_)
      (edits_foldl Prod.fst edits_passItem _ (s.1.dropValue ns arg target, s.2))
    exact d.quiet_name d.name.refits_eraseArg

lemma edits_passValues {targets : PointSet} : Edits false ds (passValues ds ns arg targets).1 := by
  unfold passValues
  split_ifs
  · exact .refl
  · exact edits_foldl Prod.fst edits_passTarget targets.names (ds, false)

lemma edits_passArgument (s : Rounds) (arg : Option String) :
    Edits false s.defs (passArgument ns target s arg).defs := by
  unfold passArgument
  split
  · rename_i d t hd ht
    dsimp only
    split
    · refine .single (Edit.quiet fun t' ht' => ?_)
      obtain rfl : t = t' := Option.some.inj (ht.symm.trans ht')
      refine t.quiet_name ?_
      split
      · exact t.name.refits_setPos.trans (refits_addArgSet _)
      · exact t.name.refits_addArgSet
    · exact edits_passValues
  · exact .refl

lemma edits_passArguments (s : Rounds) (ns : String) :
    Edits false s.defs (passArguments s ns).defs := by
  unfold passArguments
  cases s.defs.get? ns with
  | none => exact .refl
  | some d =>
    refine edits_foldl Rounds.defs (fun s _ => ?_) d.name.points.names s
    split_ifs
    · exact .refl
    · exact edits_foldl Rounds.defs edits_passArgument d.name.args.keys s

lemma edits_rounds {n : Nat} (work : Names) (ds : Definitions) :
    Edits false ds (rounds n work ds) := by
  induction n generalizing work ds with
  | zero => exact .refl
  | succ n ih =>
    have hround := edits_foldl Rounds.defs edits_passArguments work { defs := ds }
    rw [rounds]
    split_ifs
    · exact hround
    · exact hround.trans (ih _ _)

lemma edits_complete : Edits false ds ds.complete := edits_rounds _ ds

/-! ### Operations and runs -/

/-- An operation on a definition table. Its reference may be to a definition that was replaced. -/
inductive Op where
  | create (ns tag : String) (module : Option String)
  | assign (ns : String) (r : DefRef) (module : Option String)
  | function (parent name : String) (module : Option String)
  | classDef (parent name : String) (module : Option String)
  | addName (r : DefRef) (l : Literal)
  | addNames (r : DefRef) (s : PointSet)
  | addTaint (r : DefRef) (l : Literal)
  | addTaints (r : DefRef) (s : PointSet)
  | addLiteral (r : DefRef) (l : Literal)
  | addArg (r : DefRef) (name : Option String) (v : ArgValue)
  | addLitArg (r : DefRef) (name : Option String) (l : Literal)
  | addPosArg (r : DefRef) (pos : Literal) (name : Option String) (v : ArgValue)
  | addPosLitArg (r : DefRef) (pos : Literal) (name : Option String) (l : Literal)
  /-- The name pointer of `r` takes over that of `src`. -/
  | mergeNames (r src : DefRef)
  | mergeTaints (r src : DefRef)
  /-- All three pointers of `r` take over those of `src`. -/
  | merge (r src : DefRef)
  | complete
  | closeNames
  | closeTaints

namespace Op

/-- Creates a variable of the module `m`. -/
abbrev var (name : String) : Op := .create name "NAMEDEF" (some "m")

/-- Does something with the definition `r` stands for, which must be there. -/
def withDef (r : DefRef) (f : Definition → Definitions → Definitions) : Act Definitions Unit := do
  let d ← Act.need .absent ((← get).find? r)
  modify (f d)

def run : Op → Act Definitions Unit
  | create ns tag module => discard (Definitions.create ns tag module)
  | assign ns r module => modify (·.assign ns r module)
  | function parent name module => discard (Definitions.function parent name module)
  | classDef parent name module => discard (Definitions.classDef parent name module)
  | addName r l => modify (·.addName r l)
  | addNames r s => modify (·.addNames r s)
  | addTaint r l => modify (·.addTaint r l)
  | addTaints r s => modify (·.addTaints r s)
  | addLiteral r l => modify (·.addLiteral r l)
  | addArg r name v => onName r (NamePointer.addArg name v)
  | addLitArg r name l => onName r (modify (·.addLitArg name l))
  | addPosArg r pos name v => onName r (NamePointer.addPosArg pos name v)
  | addPosLitArg r pos name l => onName r (NamePointer.addPosLitArg pos name l)
  | mergeNames r src => withDef src fun e ds =>
      (ds.addNames r e.name.points).adjust r fun d => { d with name := d.name.mergeArgs e.name }
  | mergeTaints r src => withDef src fun e ds => ds.addTaints r e.taints
  | merge r src => withDef src fun e ds => ds.merge r e
  | complete => modify Definitions.complete
  | closeNames => modify Definitions.closeNames
  | closeTaints => Definitions.closeTaints

def isClose : Op → Bool
  | closeNames | closeTaints => true
  | _ => false

/-- Whether the operation may put a definition in the place of another one. -/
def isAssign : Op → Bool
  | assign .. => true
  | _ => false

lemma leads_withDef {f : Definition → Definitions → Definitions}
    (h : ∀ d ds, Edits false ds (f d ds)) :
    Leads (Edit false) (withDef r f) := by
  refine Leads.get.bind fun ds => Leads.bind ?_ fun d => .modify (h d)
  cases ds.find? r with
  | none => exact .throw
  | some d => exact .pure

lemma leads_run {op : Op} (hc : op.isClose = false) (ha : op.isAssign = false) :
    Leads (Edit false) op.run := by
  unfold run
  cases op with
  | create ns tag module => exact (leads_create ns tag module).map
  | assign ns r module => cases ha
  | function parent name module => exact leads_function.map
  | classDef parent name module => exact leads_classDef.map
  | addName r l => exact fun ds => .single (edit_addOneTo .names ds r l)
  | addNames r s => exact fun ds => .single (Edit.names r s)
  | addTaint r l => exact fun ds => .single (edit_addOneTo .taints ds r l)
  | addTaints r s => exact fun ds => .single (Edit.taints r s)
  | addLiteral r l =>
    exact fun ds => .single (edit_adjust_quiet fun d _ _ => d.quiet_lits (Scalars.subset_add _))
  | addArg r name v => exact leads_onName refitting_addArg
  | addLitArg r name l => exact leads_onName refitting_addLitArg
  | addPosArg r pos name v => exact leads_onName refitting_addPosArg
  | addPosLitArg r pos name l => exact leads_onName refitting_addPosLitArg
  | mergeNames r src =>
    refine leads_withDef fun e ds => .tail (.single (Edit.names r e.name.points)) ?_
    exact edit_adjust_quiet fun d _ _ =>
      d.quiet_name d.name.refits_mergeArgs
  | mergeTaints r src => exact leads_withDef fun e ds => .single (Edit.taints r _)
  | merge r src => exact leads_withDef fun e ds => edits_merge
  | complete => exact fun _ => edits_complete
  | closeNames => cases hc
  | closeTaints => cases hc

lemma Edit.weaken {ds' : Definitions} (h : Edit false ds ds') : Edit true ds ds' := by
  cases h with
  | put kind module h => exact Edit.put kind module (.inl rfl)
  | quiet h => exact Edit.quiet h
  | past retired => exact Edit.past retired
  | names r s => exact Edit.names r s
  | taints r s => exact Edit.taints r s

lemma leads_run_replace {op : Op} (hc : op.isClose = false) : Leads (Edit true) op.run := by
  by_cases ha : op.isAssign = false
  · exact fun ds => ReflTransGen.mono (fun _ _ => Edit.weaken) _ _ (leads_run hc ha ds)
  · cases op with
    | assign ns r module => exact fun _ => edits_assign
    | _ => exact absurd rfl ha

end Op

def run (ops : List Op) (ds : Definitions) : Definitions :=
  ops.foldl (fun ds op => (op.run ds).2) ds

lemma run_keeps {I : Definitions → Prop} {ops : List Op}
    (h : ∀ op ∈ ops, ∀ ds, I ds → I (op.run ds).2) (hds : I ds) : I (run ops ds) := by
  induction ops generalizing ds with
  | nil => exact hds
  | cons op ops ih =>
    exact ih (fun o ho => h o (List.mem_cons_of_mem op ho)) (h op List.mem_cons_self ds hds)

end Definitions

end SinkTrace
