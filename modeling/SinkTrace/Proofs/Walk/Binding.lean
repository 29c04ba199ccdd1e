import SinkTrace.Proofs.Walk.Development

/-!
# Assignments and arguments

What brings a value to a name adds to pointers, makes definitions that are missing and binds names.
Two walks that do the same at the parts of an assignment, a result or a call do the same with the
whole.
-/

namespace SinkTrace

open Definitions Node Walk

namespace Walk

open Act

variable {ρ : Type} {D : List String → Prop} {E I J : Walk ρ → Prop} {p : Place} {P : Node → Prop}
  {v w : Node → Roam ρ Unit} {arg owner target : Expr} {args : List Expr} {isCall : Bool}
  {m : Meaning} {ms : List Meaning} {name : Option String} {ns : String} {params : PointSet}
  {r : DefRef}

/-! ### Assignments to definitions -/

lemma developing_addLoose : Developing (addLoose r m : Roam ρ Unit) := by
  unfold addLoose
  split
  · exact developing_addName
  · exact .or_pure developing_addLiteral

mutual

lemma developing_assignPlace (r : DefRef) (i : Nat) :
    ∀ m : Meaning, Developing (assignPlace r i m : Roam ρ Unit)
  | .group ms => by
    unfold assignPlace
    refine reads_def?.next fun _ => ?_
    split
    · exact developing_assignPlaces r _ 0 ms
    · exact .forM fun m _ => developing_addLoose
  | .unknown => .pure
  | .ref _ => .pure
  | .lit _ => .pure

lemma developing_assignPlaces (r place : DefRef) (i : Nat) :
    ∀ ms : List Meaning, Developing (assignPlaces r place i ms : Roam ρ Unit)
  | [] => .pure
  | .ref d :: ms => by
    unfold assignPlaces
    refine developing_addName.bind fun _ => .when developing_addTaint ?_
    exact developing_addTaint.bind fun _ => developing_assignPlaces r place i ms
  | .group (n :: ns) :: ms => by
    unfold assignPlaces
    refine (developing_assignPlace place i (.group (n :: ns))).bind fun _ => ?_
    exact developing_assignPlaces r place (i + 1) ms
  | .group [] :: ms => by
    unfold assignPlaces
    exact developing_assignPlaces r place i ms
  | .unknown :: ms => by
    unfold assignPlaces
    exact developing_assignPlaces r place i ms
  | .lit l :: ms => by
    have hrest := developing_assignPlaces r place i ms
    unfold assignPlaces
    cases l with
    | imag x => exact .when .throw hrest
    | _ => exact hrest

end

lemma developing_assignUnknownReturn {d : Definition} :
    Developing (assignUnknownReturn r d : Roam ρ Unit) := by
  refine reads_getWorld.next fun w => Leads.need.bind fun _ => ?_
  refine .forM fun p _ => reads_getWorld.next fun w => ?_
  split
  · exact .pure
  · refine .ite_bind reads_def?.leads .pure fun source => ?_
    cases source with
    | none => exact .pure
    | some s => exact developing_flows

lemma developing_assignRef {d : DefRef} : Developing (assignRef r d isCall : Roam ρ Bool) := by
  refine reads_definition.next fun _ => .ite ?_ ?_
  · exact developing_assignUnknownReturn.bind_pure
  · extract_lets done rest
    have hrest (u : Unit) : Developing (rest u) :=
      reads_kindOf.next fun k => .when developing_flows .pure
    refine .ite ?_ (hrest ())
    refine Leads.need.bind fun _ => reads_getWorld.next fun w => ?_
    refine Leads.need.bind fun _ => .ite ?_ (Leads.bind ?_ hrest)
    · exact developing_addName.bind_pure
    · refine developing_mapDefs fun ds => ds.enriches_adjust r fun d => ?_
      exact { Definition.Quiet.refl d with }

lemma developing_assignAll (i : Nat) : Developing (assignAll r isCall i ms : Roam ρ Unit) := by
  induction ms generalizing i with
  | nil => exact .pure
  | cons m ms ih =>
    cases m with
    | group gs => exact (developing_assignPlace r i (.group gs)).bind fun _ => ih _
    | ref d => exact developing_assignRef.bind fun b => .or_pure (ih _)
    | unknown => exact developing_addLiteral.bind fun _ => ih _
    | lit l => exact developing_addLiteral.bind fun _ => ih _

lemma developing_assignTo {value : Meaning} :
    Developing (assignTo ns value isCall : Roam ρ DefRef) := by
  refine developing_ensureDef.bind fun r => ?_
  split
  · exact (developing_assignAll 0).bind_pure
  · exact .pure

lemma developing_bindNs : Developing (bindNs ns r : Roam ρ Unit) := developing_bind r

/-! ### Results -/

mutual

lemma developing_defineWithin (ns : String) :
    ∀ e : Expr, Developing (defineWithin ns e : Roam ρ Unit) := by
  intro e
  cases e with
  | tuple loc es => exact developing_definePlaces ns 0 es
  | _ => exact .pure

lemma developing_definePlaces (parent : String) (i : Nat) :
    ∀ es : List Expr, Developing (definePlaces parent i es : Roam ρ Unit)
  | [] => .pure
  | e :: es => by
    refine developing_ensureDef.bind fun _ => ?_
    refine (developing_defineWithin _ e).bind fun _ => ?_
    exact developing_definePlaces parent (i + 1) es

end

lemma Tolerant.returns (hI : Tolerant World.Enriches D E I) {value : Option Expr}
    (h : Alike E J (Here p I) ((opt value).forM v) ((opt value).forM w)) :
    Alike E J (Here p I) (returns v value) (returns w value) := by
  refine hI.visitValue (fun e => reads_currentNs.next fun _ => ?_) h
  refine (developing_defineWithin _ _).bind fun _ => developing_meaning.bind fun _ => ?_
  exact developing_assignTo.bind_pure

lemma Tolerant.raises (hI : Tolerant World.Enriches D E I) {value : Option Expr}
    (h : Alike E J (Here p I) ((opt value).forM v) ((opt value).forM w)) :
    Alike E J (Here p I) (raises v value) (raises w value) := by
  refine hI.visitValue (fun e => reads_currentNs.next fun _ =>
    developing_meaning.bind fun _ => ?_) h
  exact developing_assignTo.bind_pure

/-! ### Assignment statements -/

lemma developing_baseNames : Developing (baseNames owner : Roam ρ Names) := by
  refine reads_closures.next fun c => .pure_or ?_
  refine developing_meaning.bind fun _ => reads_getWorld.next fun w => ?_
  refine .foldlM (fun _ m _ => ?_) _
  split
  · exact reads_closureOf.leads.bind_pure
  · exact .pure

lemma developing_targetNames : Developing (targetNames target : Roam ρ (List String)) := by
  unfold targetNames
  split
  · exact reads_currentNs.leads.bind_pure
  · exact developing_baseNames.bind_pure
  · exact developing_of_coins leads_subscriptNames
  · exact .pure

lemma developing_callerMeaning {caller : String} :
    Developing (callerMeaning caller : Roam ρ (Option (List Meaning))) := by
  refine reads_def?.next fun r => ?_
  split
  · exact .pure
  · refine reads_currentNs.next fun _ => reads_closureOf.next fun _ => ?_
    refine .ite ?_ ?_
    · refine Leads.bind (.mapM fun n _ => ?_) fun _ => .pure
      exact reads_def?.leads.bind_pure
    · refine reads_getWorld.next fun w => .or_pure ?_
      exact developing_create.bind_pure

lemma reads_dynamicAttr : Reads (dynamicAttr args : Roam ρ (List Meaning)) := by
  unfold dynamicAttr
  split
  · refine reads_getFrame.bind fun f => .pure_or ?_
    refine reads_currentNs.bind fun _ => reads_closureOf.bind fun _ => ?_
    refine .mapM fun o _ => ?_
    split
    · exact reads_def?.bind_pure
    · exact .throw
  · exact .pure

lemma developing_placesFor {targets : Nat} :
    Developing (placesFor targets ms : Roam ρ (List Meaning)) := by
  refine Leads.bind (.mapM fun m _ => ?_) fun _ => .pure
  split
  · exact .pure
  · refine .mapM fun i _ => reads_def?.next fun p => ?_
    split
    · exact .pure
    · refine reads_definition.next fun d => developing_create.bind fun p => ?_
      exact developing_addTaint.bind_pure
  · exact .pure_or .throw

/-- The two rules do the same at the nodes with `P` of a place. -/
structure AssignRule.Alike (E I : Walk ρ → Prop) (P : Node → Prop) (p : Place)
    (rule rule' : AssignRule ρ) : Prop where
  visit : ∀ n, P n → AlikeAt E I p (rule.visit n) (rule'.visit n)
  noteCall : ∀ name, AlikeAt E I p (rule.noteCall name) (rule'.noteCall name)
  afterwards : ∀ value r, AlikeAt E I p (rule.afterwards value r) (rule'.afterwards value r)

section Assigning

variable (hI : Tolerant World.Enriches D E I) {rule rule' : AssignRule ρ}
  (hrule : AssignRule.Alike E I P p rule rule') {targets : List Expr} {value : Expr}

include hI hrule

lemma Tolerant.silentCallMeaning {loc : Loc} {func : Expr} :
    AlikeAt E I p (silentCallMeaning rule loc func args)
      (silentCallMeaning rule' loc func args) := by
  refine (hrule.noteCall _).bind fun _ => hI.aside ?_
  refine reads_leftOf.next fun _ => .ite ?_ (Leads.pure.bind fun _ => ?_)
  · exact (Leads.mapM fun e _ => developing_meaning).bind_pure
  · refine .ite_bind reads_dynamicAttr.leads .pure fun _ => ?_
    split
    · exact .pure
    · exact developing_callerMeaning.bind_pure

lemma Tolerant.assignedMeaning :
    AlikeAt E I p (assignedMeaning rule value) (assignedMeaning rule' value) := by
  refine (hI.aside developing_meaning).bind fun ms => ?_
  cases ms with
  | cons m ms => exact .pure _
  | nil =>
    cases value with
    | call loc func args keywords => exact hI.silentCallMeaning hrule
    | _ => exact .pure _

lemma Tolerant.assignTarget (hP : Hereditary P) {fuel : Nat} (m : Meaning)
    (htarget : P (.expr target)) :
    AlikeAt E I p (assignTarget rule value isCall fuel m target)
      (assignTarget rule' value isCall fuel m target) := by
  induction fuel generalizing m target with
  | zero => exact hI.throws
  | succ fuel ih =>
    refine (hrule.visit _ htarget).bind fun _ => ?_
    have hnames : AlikeAt E I p
        (targetNames target >>= fun names => names.forM (assignName rule value isCall m))
        (targetNames target >>= fun names => names.forM (assignName rule' value isCall m)) := by
      refine (hI.aside developing_targetNames).bind fun _ => .forM fun _ _ => ?_
      refine .ite (.pure _) ((hI.aside developing_assignTo).bind fun r => ?_)
      refine (hI.reads reads_kindOf).bind fun k => .ite (.pure _) ?_
      exact (hI.aside developing_bindNs).bind fun _ => hrule.afterwards value r
    cases target with
    | tuple loc elts =>
      cases m with
      | ref r => exact .pure _
      | _ =>
        refine .ite (hI.need.bind fun _ => .forM fun _ hitem => ?_) (.pure _)
        refine ih _ (hP _ htarget _ ?_)
        simp [children, ofExpr, exprs, (List.of_mem_zip hitem).2]
    | _ => exact hnames

lemma Tolerant.assign_from (hP : Hereditary P)
    (hvalue : Alike E J (Here p I) (rule.visit (.expr value)) (rule'.visit (.expr value)))
    (htargets : ∀ t ∈ targets, P (.expr t)) :
    Alike E J (Here p I) (Walk.assign rule value targets) (Walk.assign rule' value targets) := by
  refine hvalue.bind fun _ => (hI.assignedMeaning hrule).bind fun ms => ?_
  refine Alike.bind (.foldlM (fun ms target htarget => ?_)) fun _ => .pure _
  have hassign (ms : List Meaning) : AlikeAt E I p
      (Walk.assignTarget rule value value.id?.isNone depthBound (.group ms) target >>=
        fun _ => pure ms)
      (Walk.assignTarget rule' value value.id?.isNone depthBound (.group ms) target >>= fun _ =>
        pure ms) :=
    (hI.assignTarget hrule hP _ (htargets target htarget)).bind fun _ => .pure _
  split
  · exact (hI.aside developing_placesFor).bind fun _ => hassign _
  · exact hassign _

lemma Tolerant.assign (hP : Hereditary P) (hvalue : P (.expr value))
    (htargets : ∀ t ∈ targets, P (.expr t)) :
    AlikeAt E I p (assign rule value targets) (assign rule' value targets) :=
  hI.assign_from hrule hP (hrule.visit _ hvalue) htargets

end Assigning

/-! ### Arguments of calls -/

lemma developing_feed : Developing (feed params ms : Roam ρ Unit) := by
  refine .forM fun p _ => reads_def?.next fun r => ?_
  split
  · exact .pure
  · refine .forM fun m _ => ?_
    split
    · exact developing_flows
    · exact developing_addLiteral

lemma developing_feedOwner : Developing (feedOwner params owner : Roam ρ Unit) := by
  refine .forM fun p _ => reads_def?.next fun r => ?_
  split
  · exact .pure
  · refine developing_meaning.bind fun _ => .forM fun m _ => ?_
    split
    · exact developing_addTaint
    · exact .pure

lemma developing_feedWith {params : Option PointSet} :
    Developing (feedWith params arg ms : Roam ρ Unit) := by
  unfold feedWith
  split
  · exact .pure
  · exact developing_feedOwner
  · exact developing_feed

lemma reads_namePointer : Reads (namePointer r : Roam ρ NamePointer) := reads_definition.bind_pure

lemma reads_paramsAt {pos : Nat} : Reads (paramsAt r pos : Roam ρ (Option PointSet)) :=
  reads_namePointer.bind_pure

lemma developing_passAt {pos keywords : Nat} :
    Developing (passAt r pos keywords arg ms : Roam ρ Unit) := by
  refine reads_kindOf.next fun k => .ite ?_ ?_
  · split
    · refine reads_namePointer.next fun p => .forM fun i _ => ?_
      exact reads_paramsAt.next fun params => developing_feedWith
    · exact reads_paramsAt.next fun _ => developing_feedWith
  · refine .forM fun m _ => developing_onName ?_
    split
    · exact refitting_addPosArg
    · exact refitting_addPosLitArg

lemma developing_addArg : Developing (onDefs (onName r (match m with
      | .ref d => NamePointer.addArg name (.name d.ns)
      | m => modify (·.addLitArg name m.literal))) : Roam ρ Unit) := by
  refine developing_onName ?_
  split
  · exact refitting_addArg
  · exact refitting_addLitArg

lemma developing_passNamed : Developing (passNamed r name arg ms : Roam ρ Unit) := by
  refine reads_kindOf.next fun k => .ite ?_ ?_
  · exact reads_namePointer.next fun p => developing_feedWith
  · exact .forM fun m _ => developing_addArg

lemma Tolerant.passArgs (hI : Tolerant World.Enriches D E I) {keywords : List (Keyword Expr)}
    (hargs : AlikeOn E I p v w .expr args)
    (hkeywords : ∀ k ∈ keywords, AlikeAt E I p (v (.expr k.value)) (w (.expr k.value))) :
    AlikeAt E I p (passArgs v r args keywords) (passArgs w r args keywords) := by
  refine Alike.bind (.forM fun a ha => ?_) fun _ => .forM fun k hk => ?_
  · refine (hargs _ (List.fst_mem_of_mem_zipIdx ha)).bind fun _ => hI.aside ?_
    exact developing_meaning.bind fun ms => developing_passAt
  · refine (hkeywords k hk).bind fun _ => hI.aside ?_
    exact developing_meaning.bind fun _ => developing_passNamed

end Walk

end SinkTrace
