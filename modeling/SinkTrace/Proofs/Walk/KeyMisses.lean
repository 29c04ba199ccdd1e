import SinkTrace.Proofs.Walk.Development
import SinkTrace.Walk.KeyMisses

/-!
# The pass for keys

Between its visits the pass for keys takes nothing away from the world. An invariant that stands
this is kept by the pass.
-/

namespace SinkTrace.KeySearch

open Act Walk

variable {D : List String → Prop} {E I : Walk KeySearch → Prop} {p : Place} {P : Node → Prop}
  {v w : Node → Search Unit}

lemma developing_noteMisses {loc : Loc} {value index : Expr} :
    Developing (noteMisses loc value index) := by
  refine reads_getFrame.next fun f => ?_
  refine (developing_of_coins leads_subscriptNames).bind fun _ => .forM fun _ _ => ?_
  refine reads_def?.next fun r => .or_pure ?_
  exact developing_of_world (fun _ => rfl) fun s => { World.Enriches.refl s.world with }

lemma alike_rule (hI : Tolerant World.Enriches D E I) (hD : ∀ name, D (p.names ++ [name]))
    (hlambda : ∀ loc params body, P (.expr (.lambda loc params body)) → D p.names)
    (hmodule : ∀ body, P (.program body) → Renumbers I) (hP : Hereditary P) (h : Visits E I P p v w)
    {n : Node} (hn : P n) :
    AlikeAt E I p (rule v n) (rule w n) := by
  have hpart {c : Node} (hc : c ∈ n.children) : AlikeAt E I p (v c) (w c) := h.here c (hP n hn c hc)
  unfold rule
  split
  · refine (hpart ?_).bind fun _ => (hpart ?_).bind fun _ => hI.aside developing_noteMisses
    · simp [Node.children, Node.ofExpr]
    · simp [Node.children, Node.ofExpr]
  · refine (hI.nextLambda (hlambda _ _ _ hn)).bind fun _ => hI.lambdaBody ?_
    exact h.inside _ p.holds_inFunction _ (isPart_expr _)
  · exact hI.visitCommon hD hmodule hP h hn

lemma alike_visit (hI : Tolerant World.Enriches Any E I) (hmodule : Renumbers I)
    {fuel : Nat} (p : Place) (n : Node) : AlikeAt E I p (visit fuel n) (visit fuel n) := by
  induction fuel generalizing p n with
  | zero => exact hI.throws
  | succ fuel ih =>
    exact alike_rule hI (fun _ => trivial) (fun _ _ _ _ => trivial)
      (fun _ _ => hmodule) hereditary_true ⟨fun n _ => ih p n, fun q _ n _ => ih q n⟩ trivial

section World

variable {E I : World → Prop}

lemma alike_analyze (hI : Tolerant (ρ := KeySearch) World.Enriches Any (OfWorld E) (OfWorld I))
    (hcount : Recountable I) (fuel : Nat) (p : Place) :
    AlikeAt (OfWorld E) (OfWorld I) p (analyze fuel) (analyze fuel) := by
  induction fuel generalizing p with
  | zero => exact hI.throws
  | succ fuel ih =>
    refine (hI.aside (developing_mapFrame fun _ => ⟨_, _, _, rfl⟩)).bind fun _ => ?_
    refine (hI.reads reads_fileText).bind fun _ => ?_
    refine (hI.aside (developing_mapDefs Definitions.enriches_closeNames)).bind fun _ => ?_
    refine (hI.reads reads_program).bind fun _ => ?_
    refine (alike_visit hI (renumbers_of_world hcount) p _).bind fun _ => ?_
    refine (hI.reads .get).bind fun s => .forM fun _ _ => ?_
    exact alike_submodule hI (fun w _ _ => { World.Enriches.refl w with }) (ih {})

end World

end SinkTrace.KeySearch
