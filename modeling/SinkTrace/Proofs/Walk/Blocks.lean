import SinkTrace.Proofs.Walk.Place

/-!
# Walking through blocks

Two walks that do the same at the parts of a block do the same at the block. Into and out of a block
a walk changes its place and what the scope of the block counts, so the invariant has to stand that.
-/

namespace SinkTrace

open Node Walk

abbrev Params.values {ε : Type} (ps : Params ε) : List ε :=
  ps.defaults ++ ps.kwDefaults.filterMap id

namespace Walk

open Act

variable {ρ : Type} {loose : Bool} {loc : Loc} {module name : String}

lemma reads_hasScope {ns : String} : Reads (hasScope ns : Roam ρ Bool) := fun _ => .refl

lemma reads_fileText : Reads (fileText : Roam ρ String) := Leads.get.bind fun _ => .need

lemma reads_program : Reads (program : Roam ρ (List Stmt)) := by
  refine reads_fileText.bind fun _ => ?_
  split
  · exact .pure
  · exact .throw

lemma reads_isAnalyzed : Reads (isAnalyzed module : Roam ρ Bool) := fun _ => .refl

/-- What holds for a node holds for its parts. -/
def Hereditary (P : Node → Prop) : Prop := ∀ n, P n → ∀ c ∈ n.children, P c

lemma hereditary_true : Hereditary Any := fun _ _ _ _ => trivial

/-- Every node but a whole program may be a part of another one. -/
def IsPart (n : Node) : Prop := ∀ body, n ≠ .program body

lemma isPart_stmt {s : Stmt} : IsPart (.stmt s) := fun _ => Node.noConfusion

lemma isPart_expr (e : Expr) : IsPart (.expr e) := fun _ => Node.noConfusion

lemma hereditary_isPart : Hereditary IsPart := by
  intro n _ c hc body
  rintro rfl
  cases n with
  | stmt s => cases s <;> simp [children, ofStmt, exprs, stmts, opt] at hc
  | expr e => cases e <;> simp [children, ofExpr, exprs, opt] at hc
  | pattern p => cases p <;> simp [children, ofPattern, exprs] at hc
  | _ => simp [children, exprs, stmts, opt] at hc

section Hereditary

variable {P : Node → Prop} (hP : Hereditary P) {args : List Expr} {func : Expr}
  {ks : List (Keyword Expr)}

include hP

lemma Hereditary.param_default {ps : Params Expr} (h : P (.params ps)) {d : Expr}
    (hd : d ∈ ps.values) : P (.expr d) := by
  refine hP _ h _ ?_
  simp only [children, exprs, List.mem_append] at hd ⊢
  rcases hd with hd | hd
  · exact .inr (List.mem_map_of_mem hd)
  · exact .inl (.inl (.inr (List.mem_map_of_mem hd)))

lemma Hereditary.call_arg (h : P (.expr (.call loc func args ks))) {a : Expr} (ha : a ∈ args) :
    P (.expr a) := hP _ h _ (by simp [children, ofExpr, exprs, ha])

lemma Hereditary.call_keyword (h : P (.expr (.call loc func args ks))) {k : Keyword Expr}
    (hk : k ∈ ks) : P (.expr k.value) := by
  have hkeyword : P (.keyword k) := hP _ h _ (by simp [children, ofExpr, hk])
  exact hP _ hkeyword _ (by simp [children])

end Hereditary

/-- Two walks do the same at the nodes that `as` stand for. -/
abbrev AlikeOn {α : Type} (E I : Walk ρ → Prop) (p : Place) (v w : Node → Roam ρ Unit)
    (node : α → Node) (as : List α) : Prop := ∀ a ∈ as, AlikeAt E I p (v (node a)) (w (node a))

/-- Two walks do the same at the nodes with `P` of a place, and at all parts of programs inside its
blocks. -/
structure Visits (E I : Walk ρ → Prop) (P : Node → Prop) (p : Place)
    (v w : Node → Roam ρ Unit) : Prop where
  here : ∀ n, P n → AlikeAt E I p (v n) (w n)
  inside : ∀ q, p.Holds q → ∀ n, IsPart n → AlikeAt E I q (v n) (w n)

variable {X : World → World → Prop} {D : List String → Prop} {E I : Walk ρ → Prop} {p : Place}
  {P : Node → Prop} {v w : Node → Roam ρ Unit} {run run' : Roam ρ Unit}

def Renumbers (I : Walk ρ → Prop) : Prop :=
  ∀ s f, Recounts s.world.scopes s.frame.module f → I s →
    I { s with world := { s.world with scopes := s.world.scopes.modify s.frame.module f } }

namespace Tolerant

variable (hI : Tolerant X D E I) {body : List Stmt} {a b : Roam ρ Unit}

include hI

lemma resetting (hD : D p.names) (h : AlikeAt E I p a b) :
    AlikeAt E I p (currentNs >>= fun ns => resetScope ns >>= fun _ => a)
      (currentNs >>= fun ns => resetScope ns >>= fun _ => b) := by
  rintro s ⟨hp, hs⟩
  exact h _ ⟨hp, hI.renumber p s _ hD hp (fun _ _ => ⟨rfl, rfl⟩) hs⟩

lemma ifScoped (hD : D p.names) (h : AlikeAt E I p a b) : AlikeAt E I p
      (currentNs >>= fun ns => hasScope ns >>= fun c =>
        if c then resetScope ns >>= fun _ => a else pure ())
      (currentNs >>= fun ns => hasScope ns >>= fun c =>
        if c then resetScope ns >>= fun _ => b else pure ()) := by
  refine .look (fun _ => rfl) fun _ => .look (fun _ => rfl) fun c => ?_
  split_ifs
  · rintro s ⟨⟨hs, rfl⟩, -⟩
    exact hI.resetting hD h s hs
  · exact fun s hs => ⟨rfl, hs.1.1⟩

lemma inModule_of (hmodule : Renumbers I) (h : ∀ module, Alike E
      (fun s => ((p.inFunction module).At s.frame ∧ I s) ∧ s.frame.module = module)
      (fun s => (p.inFunction module).At s.frame ∧ I s) a b) :
    AlikeAt E I p (inModule a) (inModule b) := by
  refine .look (fun _ => rfl) fun module => ?_
  have hmoves : Moves fun s : Walk ρ => I s ∧ s.frame.module = module :=
    fun s _ _ _ hs => ⟨hI.move s _ _ _ hs.1, hs.2⟩
  refine (alike_inFunction hmoves hI.move module ?_).mono fun s hs => ⟨hs.1.1, hs.1.2, hs.2⟩
  refine .look (fun _ => rfl) fun c => ?_
  split_ifs
  · rintro s ⟨⟨hp, hs, rfl⟩, -⟩
    exact h s.frame.module _ ⟨⟨hp, hmodule s _ (fun _ _ => ⟨rfl, rfl⟩) hs⟩, rfl⟩
  · exact fun s hs => ⟨rfl, hs.1.1, hs.1.2.1⟩

lemma inModule (hmodule : Renumbers I) (h : ∀ module, AlikeAt E I (p.inFunction module) a b) :
    AlikeAt E I p (inModule a) (inModule b) :=
  hI.inModule_of hmodule fun module => (h module).mono fun _ hs => hs.1

lemma nextLambda (hD : D p.names) : AlikeAt E I p (nextLambda) nextLambda := by
  refine .look (fun _ => rfl) fun _ => .look (fun _ => rfl) fun w => ?_
  rintro s ⟨⟨⟨hp, hs⟩, rfl⟩, rfl⟩
  refine ⟨rfl, ?_⟩
  rw [run_bind]
  cases hscope : s.world.scopes.get? (Text.dotted s.frame.names) with
  | none => exact hI.fails s hs
  | some scope =>
    refine ⟨hp, hI.renumber p s _ hD hp (fun _ hscope' => ?_) hs⟩
    rw [hscope, Option.some.injEq] at hscope'
    subst hscope'
    exact ⟨rfl, rfl⟩

lemma functionBody (hD : D (p.names ++ [name]))
    (h : AlikeOn E I (p.inFunction name) v w .stmt body) :
    AlikeAt E I p (functionBody v name body) (functionBody w name body) :=
  hI.inFunction name (hI.ifScoped hD (.forM h))

lemma classBody (hD : D (p.names ++ [name])) (h : AlikeOn E I (p.inClass name) v w .stmt body) :
    AlikeAt E I p (classBody v name body) (classBody w name body) :=
  hI.inClass name (hI.resetting hD (.forM h))

lemma lambdaBody {body : Expr} (h : AlikeAt E I (p.inFunction name) (v (.expr body))
    (w (.expr body))) :
    AlikeAt E I p (lambdaBody v name body) (lambdaBody w name body) :=
  (hI.reads reads_currentNs).bind fun _ => hI.createScope.bind fun _ => hI.inFunction name h

lemma inNumbered {kind : Numbered} (hD : ∀ name, D (p.names ++ [name]))
    (h : ∀ name, AlikeAt E I (p.inBlock name) a b) :
    AlikeAt E I p (inNumbered kind loc a) (inNumbered kind loc b) := by
  refine (hI.reads reads_currentNs).bind fun _ => (hI.reads reads_hasScope).bind fun c => ?_
  exact .ite (hI.inBlock (hI.resetting (hD _) (h _))) (.pure _)

lemma evaluatedText (h : ∀ n, IsPart n → AlikeAt E I p (v n) (w n)) {text : String} :
    AlikeAt E I p (evaluatedText v text) (evaluatedText w text) := by
  unfold Walk.evaluatedText
  cases Parser.program text with
  | error e => exact hI.throws
  | ok body =>
    refine (hI.reads reads_getFrame).bind fun f => ?_
    refine (hI.mapFrame fun _ => ⟨_, _, _, rfl⟩).bind fun _ => ?_
    refine (Alike.forM fun s _ => .forM fun n hn => h n ?_).bind fun _ => ?_
    · exact hereditary_isPart (.stmt s) nofun n hn
    exact hI.mapFrame fun _ => ⟨_, _, _, rfl⟩

lemma visitValue {value : Option Expr} {f : Expr → Roam ρ Unit} (hf : ∀ e, Leads (Aside X) (f e))
    {J : Walk ρ → Prop} (h : Alike E J (Here p I) ((opt value).forM v) ((opt value).forM w)) :
    Alike E J (Here p I) (value.forM fun e => v (.expr e) >>= fun _ => f e)
      (value.forM fun e => w (.expr e) >>= fun _ => f e) := by
  cases value with
  | none => exact h
  | some e =>
    rw [opt, Option.map_some, Option.toList_some, forM_singleton, forM_singleton] at h
    exact h.bind fun _ => hI.aside (hf e)

lemma evaluated (h : ∀ n, IsPart n → AlikeAt E I p (v n) (w n)) {l : Literal} :
    AlikeAt E I p (evaluated v l) (evaluated w l) := by
  unfold Walk.evaluated
  cases l with
  | str text => exact hI.evaluatedText h
  | bytes bs =>
    dsimp only
    cases Text.Utf8.strict? bs with
    | some text => exact hI.evaluatedText h
    | none => exact hI.throws
  | _ => exact hI.throws

lemma visitCommon (hD : ∀ name, D (p.names ++ [name]))
    (hmodule : ∀ body, P (.program body) → Renumbers I) (hP : Hereditary P)
    (h : Visits E I P p v w) {n : Node} (hn : P n) :
    AlikeAt E I p (visitCommon v n) (visitCommon w n) := by
  have hparts : AlikeAt E I p (n.children.forM v) (n.children.forM w) :=
    .forM fun c hc => h.here c (hP n hn c hc)
  unfold Walk.visitCommon
  split
  · refine hI.inModule (hmodule _ hn) fun m => .forM fun s _ => ?_
    exact h.inside _ p.holds_inFunction _ nofun
  · refine .ite hparts (hI.functionBody (hD _) fun s _ => ?_)
    exact h.inside _ p.holds_inFunction _ nofun
  · exact hI.classBody (hD _) fun s _ => h.inside _ p.holds_inClass _ nofun
  · refine .forM fun s hs => h.here _ (hP _ hn _ ?_)
    simp [children, ofStmt, stmts, hs]
  · refine hI.inNumbered hD fun _ => .forM fun _ _ => .forM fun e _ => ?_
    exact h.inside _ p.holds_inBlock _ nofun
  · refine hI.inNumbered hD fun _ => .forM fun e _ => ?_
    exact h.inside _ p.holds_inBlock _ nofun
  · exact hparts

end Tolerant

/-! ### Other files -/

/-- The walk that a walk starts in another file. -/
abbrev outset (file module : String) (own : ρ) (s : Walk ρ) : Walk ρ where
  world := s.world
  frame := { file, module, analyzed := { names := s.frame.analyzed.names.insertEnd module } }
  own := own

/-- The walk goes on with what the other one left behind. -/
abbrev comeback (s t : Walk ρ) : Walk ρ :=
  { s with
    world := t.world
    frame := { s.frame with analyzed := s.frame.analyzed.takeBack t.frame.analyzed } }

lemma alike_run_elsewhere {E' J J' : Walk ρ → Prop} {file : String} {own : ρ} {s : Walk ρ}
    (h : run (outset file module own s) = run' (outset file module own s) ∧
      Ends E' J' (run (outset file module own s)))
    (hE : ∀ t, E' t → E { s with world := t.world }) (hJ : ∀ t, J' t → J (comeback s t)) :
    elsewhere file module own run s = elsewhere file module own run' s ∧
      Ends E J (elsewhere file module own run s) := by
  obtain ⟨hsame, hend⟩ := h
  unfold elsewhere
  dsimp only
  rw [← hsame]
  refine ⟨rfl, ?_⟩
  rcases hout : run (outset file module own s) with ⟨_ | _, t⟩
  · rw [hout] at hend
    exact hE t hend
  · rw [hout] at hend
    exact hJ t hend

/-! ### Invariants of the world -/

/-- The invariant stands that a scope numbers differently. -/
def Recountable (I : World → Prop) : Prop :=
  ∀ w ns f, Recounts w.scopes ns f → I w → I { w with scopes := w.scopes.modify ns f }

/-- The condition is about the world that is walked through. -/
abbrev OfWorld (I : World → Prop) (s : Walk ρ) : Prop := I s.world

section World

variable {E I : World → Prop}

lemma tolerant_of_world (hrefl : ∀ w, X w w)
    (hcreate : ∀ (w : World) ns parent, X w { w with scopes := w.scopes.create ns parent })
    (hstep : ∀ w w', I w → X w w' → I w') (hcount : Recountable I) (hfails : ∀ w, I w → E w) :
    Tolerant (ρ := ρ) X Any (OfWorld E) (OfWorld I) where
  refl := hrefl
  create := hcreate
  step s t hs hst := hstep s.world t.world hs hst.world
  fails s hs := hfails s.world hs
  move _ _ _ _ hs := hs
  deeper _ _ _ := trivial
  renumber _ s f _ _ hf hs := hcount s.world _ f hf hs

lemma renumbers_of_world (hcount : Recountable I) : Renumbers fun s : Walk ρ => I s.world :=
  fun s f hf hs => hcount s.world _ f hf hs

lemma world_of_alike {α : Type} {a : Roam ρ α} {s : Walk ρ}
    (h : AlikeAt (OfWorld I) (OfWorld I) (.ofFrame s.frame) a a) (hs : I s.world) :
    I (a s).2.world := by
  have hend := (h s ⟨Place.at_of_eq rfl rfl rfl, hs⟩).2
  rcases hrun : a s with ⟨_ | _, t⟩
  · rw [hrun] at hend
    exact hend
  · rw [hrun] at hend
    exact hend.2

/-- A walk through another file starts outside all blocks, in the module of the file. -/
lemma alike_elsewhere_of {Q : Frame → Prop} (hQ : ∀ f analyzed, Q f → Q { f with analyzed })
    (file module : String) (own : ρ)
    (h : Alike (OfWorld E)
      (fun s => { loose : Place }.At s.frame ∧ s.frame.module = module ∧ I s.world)
      (OfWorld I) run run') :
    AlikeAt (OfWorld E) (fun s => Q s.frame ∧ I s.world) p (elsewhere file module own run)
      (elsewhere file module own run') := by
  rintro s ⟨hp, hframe, hs⟩
  exact alike_run_elsewhere (h _ ⟨Place.at_of_eq rfl rfl rfl, rfl, hs⟩) (fun _ he => he) fun t ht =>
    ⟨⟨hp.names, hp.methods, hp.classes⟩, hQ _ _ hframe, ht⟩

lemma alike_elsewhere {file : String} {own : ρ}
    (h : AlikeAt (OfWorld E) (OfWorld I) { loose } run run') :
    AlikeAt (OfWorld E) (OfWorld I) p (elsewhere file module own run)
      (elsewhere file module own run') := by
  have halike := alike_elsewhere_of (p := p) (Q := fun _ => True) (fun _ _ hf => hf) file module own
    ((h.mono fun s hs => ⟨hs.1, hs.2.2⟩).post fun s hs => hs.2)
  simpa only [true_and] using halike

lemma alike_submodule (hI : Tolerant (ρ := ρ) X D (OfWorld E) (OfWorld I))
    (hcurrent : ∀ (w : World) module file,
      X w { w with imports := w.imports.setCurrent module file })
    (hrun : AlikeAt (OfWorld E) (OfWorld I) { loose } run run') {own : ρ} :
    AlikeAt (OfWorld E) (OfWorld I) p (submodule own run module) (submodule own run' module) := by
  have hset (module file : String) :
      Leads (Aside X) (onImports (modify (·.setCurrent module file)) : Roam ρ Unit) :=
    fun s => .single (aside_of_world rfl (hcurrent s.world module file))
  refine (hI.reads reads_isAnalyzed).bind fun b => .ite (.pure _) ?_
  refine (hI.reads .get).bind fun s => .ite (.pure _) ?_
  refine (hI.aside (hset _ _)).bind fun _ => ?_
  exact (alike_elsewhere hrun).bind fun _ => hI.aside (hset _ _)

end World

end Walk

end SinkTrace
