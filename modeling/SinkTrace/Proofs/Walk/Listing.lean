import SinkTrace.Proofs.Walk.Flow.Visit

/-!
# Declared blocks are listed

A function or class that is declared is listed by its module, and the sink node of the module notes
it. A class is noted after it has been listed, a function before, and in between the imports of the
function are taken in, where anything else may be declared. So the walk is followed with some blocks
left open (`Declared`): a function is open from its note on until it is listed.
-/

namespace SinkTrace

open Text Act Walk

variable {fuel : Nat} {p : Place} {m : String} {but : String → String → Prop}

/-! ### Names of blocks -/

lemma Text.dotted_inner {m : String} {names : List String} {name : String} :
    dotted [dotted (m :: names), name] = m ++ "." ++ dotted (names ++ [name]) :=
  calc dotted [dotted (m :: names), name]
    _ = dotted (m :: names) ++ "." ++ dotted [name] := String.intercalate_cons_cons
    _ = dotted (m :: names ++ [name]) :=
      (String.intercalate_append_of_ne_nil (List.cons_ne_nil _ _) (List.cons_ne_nil _ _)).symm
    _ = m ++ "." ++ dotted (names ++ [name]) :=
      String.intercalate_cons_of_ne_nil (List.append_ne_nil_of_right_ne_nil _
        (List.cons_ne_nil _ _))

/-- The place is in a block of the module. -/
structure Place.IsIn (p : Place) (m : String) : Prop where
  tight : p.loose = false
  head : p.names.head? = some m

namespace Place.IsIn

variable {q : Place} {f : Frame}

lemma holds (h : p.IsIn m) (hq : p.Holds q) : q.IsIn m := by
  refine ⟨hq.loose_eq.trans h.tight, ?_⟩
  obtain ⟨name, rfl | rfl | rfl⟩ := hq <;>
    simp [inBlock, inFunction, inClass, List.head?_append, h.head]

lemma names_eq (h : p.IsIn m) (hat : p.At f) : f.names = p.names :=
  hat.names_eq fun hloose => by simp [h.tight] at hloose

lemma dotted_inner (h : p.IsIn m) (name : String) :
    dotted [dotted p.names, name] = m ++ "." ++ dotted (p.names.drop 1 ++ [name]) := by
  obtain ⟨names, hnames⟩ := List.head?_eq_some_iff.mp h.head
  rw [hnames]
  exact Text.dotted_inner

end Place.IsIn

/-! ### Worlds -/

/-- Every block that is noted as declared is listed by its module, except those of `but`. -/
structure World.Declared (but : String → String → Prop) (w : World) : Prop where
  listed : ∀ m x, w.sinks.Analyzed m x → but m x ∨ w.modules.Lists m (m ++ "." ++ x)
  inner : ∀ m, w.modules.outer.contains m = false
  keyed : w.defs.Keyed

namespace World.Declared

variable {w w' : World} {x : String}

lemma enriches (h : w.Declared but) (hw : w.Enriches w') : w'.Declared but where
  listed m x hx := (h.listed m x (hw.analyzed m x hx)).imp_right (hw.modules.lists _ _)
  inner m := by
    rw [Bool.eq_false_iff]
    intro hm
    exact Bool.eq_false_iff.mp (h.inner m) (hw.modules.outer m hm)
  keyed := hw.keyed h.keyed

lemma recountable (but : String → String → Prop) : Walk.Recountable (World.Declared but) :=
  fun _ _ _ _ hw => ⟨hw.listed, hw.inner, hw.keyed⟩

lemma note (h : w.Declared but) :
    (w.mapSinks (·.adjustNode m fun n => { n with analyzed := n.analyzed.insertEnd x })).Declared
      fun X y => but X y ∨ X = m ∧ y = x where
  listed X y hy := by
    rcases Sinks.analyzed_of_note hy with hy | hy
    · exact (h.listed X y hy).imp_left .inl
    · exact .inl (.inr hy)
  inner := h.inner
  keyed := h.keyed

lemma close (h : w.Declared fun X y => but X y ∨ X = m ∧ y = x)
    (hx : w.modules.Lists m (m ++ "." ++ x)) : w.Declared but where
  listed X y hy := by
    rcases h.listed X y hy with (hbut | ⟨rfl, rfl⟩) | hlists
    · exact .inl hbut
    · exact .inr hx
    · exact .inr hlists
  inner := h.inner
  keyed := h.keyed

end World.Declared

namespace Declarations

variable {ns : String} {v : Node → Declare Unit} {enter : String → Declare Unit} {W : World → Prop}
  {depth : Nat} {node : Node} {s t : Walk Declarations}

abbrev In (m : String) (W : World → Prop) (s : Walk Declarations) : Prop := s.frame.module = m ∧
  W s.world

/-- The world is the one with the blocks of `but` open, and the module lists a block. -/
abbrev Listing (but : String → String → Prop) (m x : String) (w : World) : Prop :=
  w.Declared but ∧ w.modules.Lists m x

abbrev Opens (m : String) (but : String → String → Prop) : Walk Declarations → Prop :=
  In m (World.Declared but)

/-- The action keeps the place, and the blocks that are open. -/
abbrev Declares (m : String) (but : String → String → Prop) (p : Place) (a : Declare Unit) : Prop :=
  AlikeAt Any (Opens m but) p a a

lemma tolerant_in (hW : ∀ w w', W w → w.Enriches w' → W w') (hcount : Recountable W) (m : String) :
    Tolerant World.Enriches Any Any (In m W) where
  refl := .refl
  create w ns parent := w.enriches_scopes w.scopes.adds_create
  step s t hs hst := by
    obtain ⟨_, _, _, hframe⟩ := hst.frame
    refine ⟨?_, hW _ _ hs.2 hst.world⟩
    rw [hframe]
    exact hs.1
  fails _ _ := trivial
  move _ _ _ _ hs := hs
  deeper _ _ _ := trivial
  renumber _ s f _ _ hf hs := ⟨hs.1, hcount s.world _ f hf hs.2⟩

lemma tolerant_declared (but : String → String → Prop) (m : String) :
    Tolerant World.Enriches Any Any (Opens m but) :=
  tolerant_in (fun _ _ hw => hw.enriches) (.recountable but) m

lemma tolerant_listing {x : String} : Tolerant World.Enriches Any Any (In m (Listing but m x)) :=
  tolerant_in (fun _ _ hw hstep => ⟨hw.1.enriches hstep, hstep.modules.lists _ _ hw.2⟩)
    (fun _ _ _ _ hw => ⟨⟨hw.1.listed, hw.1.inner, hw.1.keyed⟩, hw.2⟩) m

lemma importing_declared : Importing Any Any (Opens m but) := by
  refine importing_of_classes (tolerant_declared but m) fun p _ _ => ?_
  rintro s ⟨hp, hmodule, hs⟩
  exact ⟨rfl, hp, hmodule, hs.listed, hs.inner, hs.keyed⟩

/-! ### Blocks -/

lemma run_of_onDefs {α : Type} {a : Act Definitions α} {r : α}
    (h : onDefs a s = (.ok r, t)) : a s.world.defs = (.ok r, t.world.defs) := by
  unfold onDefs onWorld World.onDefs at h
  obtain ⟨w, hworld, rfl⟩ := exists_of_zoom h
  obtain ⟨ds, hdefs, rfl⟩ := exists_of_zoom hworld
  exact hdefs

lemma lists_addSpan (hinner : ∀ m, s.world.modules.outer.contains m = false)
    (h : addSpan ns node s = (.ok (), t)) : t.world.modules.Lists s.frame.module ns := by
  obtain ⟨_, _, hmodule, h⟩ := of_bind h
  cases hmodule
  obtain ⟨_, s₁, hensure, h⟩ := of_bind h
  cases h
  refine Modules.lists_addMethod ?_
  unfold ensureModule at hensure
  simp only [getFrame, getWorld, run_bind, run_get, run_pure] at hensure
  cases hget : s.world.modules.get? s.frame.module with
  | some info =>
    rw [hget] at hensure
    cases hensure
    have houter := Table.not_contains_iff.mp (hinner s.frame.module)
    rw [Modules.get?, houter] at hget
    simp only [Option.orElse_eq_orElse, Option.orElse_eq_or, Option.or_none] at hget
    exact Table.contains_of_get? hget
  | none =>
    rw [hget] at hensure
    cases hensure
    exact Table.contains_of_get? Table.get?_set_self

lemma alike_addSpan : Alike Any (Here p (Opens m but))
      (Here p (In m (Listing but m ns))) (addSpan ns node) (addSpan ns node) := by
  have hkept := (tolerant_declared but m).aside (p := p) (developing_addSpan ns node)
  intro s hs
  refine ⟨rfl, ?_⟩
  rcases hrun : addSpan ns node s with ⟨_ | _, t⟩
  · trivial
  · obtain ⟨hp, hmodule, hdeclared⟩ := hkept.keeps hs hrun
    have hlists := lists_addSpan hs.2.2.inner hrun
    rw [hs.2.1] at hlists
    exact ⟨hp, hmodule, hdeclared, hlists⟩

/-- The name of a block of the place, inside the module. -/
abbrev blockName (p : Place) (name : String) : String := Text.dotted (p.names.drop 1 ++ [name])

section Blocks

variable (hp : p.IsIn m) {c : ClassDecl Stmt}

include hp

lemma look_bind {α β : Type} {J : Walk Declarations → Prop} (look : List String → String → α)
    {a : Declare α} (ha : ∀ s, a s = (.ok (look s.frame.names s.frame.module), s))
    {f g : α → Declare β}
    (h : Alike Any (Here p (In m W)) J (f (look p.names m)) (g (look p.names m))) :
    Alike Any (Here p (In m W)) J (a >>= f) (a >>= g) := by
  intro s hs
  rw [run_bind, run_bind, ha s, hp.names_eq hs.1, hs.2.1]
  exact h s hs

lemma alike_declareFunction_listing (but : String → String → Prop) (loc : Loc) (node : Node)
    (name : String) (params : Params Expr)
    (h : ∀ d ∈ params.values, Declares m but p (v (.expr d)))
    (decorators : List Expr) :
    Alike Any (Here p (Opens m but)) (Here p (In m (Listing but m (m ++ "." ++ blockName p name))))
      (declareFunction v loc node name params decorators)
      (declareFunction v loc node name params decorators) := by
  have hI := tolerant_declared but m
  refine look_bind hp (fun names _ => dotted names) (fun _ => rfl) ?_
  refine look_bind hp (fun _ module => module) (fun _ => rfl) ?_
  refine (hI.reads reads_def?).bind fun _ => (hI.reads reads_leftOf).bind fun _ => ?_
  refine (alike_defaults hI h).bind fun _ => ?_
  refine (hI.aside (developing_onDefs Definitions.leads_function)).bind_of
    (P := fun fn => fn.ns = m ++ "." ++ blockName p name) (fun s fn t hs hrun => ?_) fun _ hfn => ?_
  · rw [← hp.dotted_inner]
    exact hs.2.2.keyed.ns_function (run_of_onDefs hrun)
  · rw [hfn]
    refine alike_addSpan.bind fun _ => ?_
    exact tolerant_listing.aside developing_declareParams

lemma alike_declareClass_listing : Alike Any (Here p (Opens m but))
      (Here p (In m (Listing but m (m ++ "." ++ blockName p c.name))))
      (declareClass m c) (declareClass m c) := by
  have hI := tolerant_declared but m
  refine look_bind hp (fun names _ => dotted names) (fun _ => rfl) ?_
  refine (hI.aside (developing_onDefs Definitions.leads_classDef)).bind_of
    (P := fun r => r.ns = m ++ "." ++ blockName p c.name) (fun s r t hs hrun => ?_) fun r hr => ?_
  · rw [← hp.dotted_inner]
    exact hs.2.2.keyed.ns_classDef (run_of_onDefs hrun)
  · rw [hr]
    refine alike_addSpan.bind fun _ => ?_
    rintro s ⟨hat, hmodule, hs, hlists⟩
    exact ⟨rfl, hat, hmodule, ⟨hs.listed, hs.inner, hs.keyed⟩, hlists⟩

lemma alike_functionDef_declared (himports : ∀ but, Imports Any (Opens m but) p enter)
    (hv : ∀ but n, IsPart n → Declares m but p (v n))
    (hinside : ∀ q, p.Holds q → ∀ n, IsPart n → Declares m but q (v n)) {f : Function Stmt} :
    Declares m but p (functionDef v enter f) := by
  have hI := tolerant_declared but m
  have hdeclare (but : String → String → Prop) := alike_declareFunction_listing hp but f.loc
    (.stmt (.functionDef f)) f.name f.params (fun d _ => hv but (.expr d) nofun) f.decorators
  refine look_bind hp (fun _ module => module) (fun _ => rfl) ?_
  refine (hI.reads reads_getWorld).bind fun world => ?_
  cases world.sinks.node? m with
  | none => exact .pure _
  | some node =>
    refine look_bind hp (fun names _ => dotted (names.drop 1 ++ [f.name])) (fun _ => rfl) ?_
    refine (hI.reads reads_getFrame).bind fun _ => .ite ?_ ?_
    · let but' : String → String → Prop := fun X x => but X x ∨ X = m ∧ x = blockName p f.name
      refine Alike.bind (J := Here p (Opens m but')) ?_ fun _ => ?_
      · rintro s ⟨hat, hmodule, hs⟩
        exact ⟨rfl, hat, hmodule, hs.note⟩
      refine ((himports but').forSinks (tolerant_declared but' m) (fun _ hi => hi)).bind fun _ => ?_
      refine Alike.bind (J := Here p (Opens m but)) ?_ fun _ => ?_
      · refine ((hdeclare but').post fun s hs => ?_).bind fun _ => .pure _
        exact ⟨hs.1, hs.2.1, hs.2.2.1.close hs.2.2.2⟩
      · exact hI.functionBody trivial fun s _ => hinside _ p.holds_inFunction _ nofun
    · exact ((hdeclare but).post fun s hs => ⟨hs.1, hs.2.1, hs.2.2.1⟩).bind fun _ => .pure _

lemma alike_classDef_declared (himports : Imports Any (Opens m but) p enter)
    (hinside : ∀ q, p.Holds q → ∀ n, IsPart n → Declares m but q (v n)) :
    Declares m but p (classDef v enter c) := by
  have hI := tolerant_declared but m
  have hbody : Declares m but p (classBody v c.name c.body) :=
    hI.classBody trivial fun s _ => hinside _ p.holds_inClass _ nofun
  refine look_bind hp (fun _ module => module) (fun _ => rfl) ?_
  refine look_bind hp (fun names _ => dotted (names.drop 1 ++ [c.name])) (fun _ => rfl) ?_
  refine (hI.reads reads_getWorld).bind fun world => ?_
  cases world.sinks.node? m with
  | none => exact .pure _
  | some node =>
    refine .ite (.ite hbody ?_) (.pure _)
    refine (himports.forSinks hI (fun _ => Imports.importingFrom hI)).bind fun _ => ?_
    refine (alike_declareClass_listing hp).bind fun _ => Alike.bind ?_ fun _ => hbody
    rintro s ⟨hat, hmodule, hs, hlists⟩
    exact ⟨rfl, hat, hmodule, hs.note.close hlists⟩

end Blocks

/-! ### The walk -/

lemma alike_visit_declared (himports : ∀ but q, Imports Any (Opens m but) q enter)
    (hp : p.IsIn m) (but : String → String → Prop) {n : Node} (hn : IsPart n) :
    Declares m but p (visit enter fuel n) := by
  induction fuel generalizing p but n with
  | zero => exact (tolerant_declared but m).throws
  | succ fuel ih =>
    refine alike_rule (tolerant_declared but m) (fun _ => trivial)
      (fun _ _ _ _ => trivial) (fun body hbody => (hbody body rfl).elim) (himports but)
      hereditary_isPart ⟨fun n hn => ih hp but hn, fun q hq n hn => ih (hp.holds hq) but hn⟩
      (fun f _ => ?_) (fun c _ => ?_) hn
    · exact alike_functionDef_declared hp (fun but => himports but p) (fun but n hn => ih hp but hn)
        (fun q hq n hn => ih (hp.holds hq) but hn)
    · exact alike_classDef_declared hp (himports but p) (fun q hq n hn => ih (hp.holds hq) but hn)

lemma alike_program_declared (himports : ∀ but q, Imports Any (Opens m but) q enter)
    {body : List Stmt} : Declares m but {} (visit enter fuel (.program body)) := by
  have hI := tolerant_declared but m
  cases fuel with
  | zero => exact hI.throws
  | succ fuel =>
    refine (hI.aside developing_declareModule).bind fun _ => Alike.bind ?_ fun _ =>
      (himports but {}).initial hI
    refine hI.inModule_of (fun s f hf hs => ⟨hs.1, .recountable but _ _ _ hf hs.2⟩) fun module => ?_
    by_cases hmodule : module = m
    · subst hmodule
      refine Alike.mono (Alike.bind (.forM fun s _ => ?_) fun _ => ?_) fun _ hs => hs.1
      · exact alike_visit_declared himports ⟨rfl, rfl⟩ but nofun
      · exact (himports but _).initial hI
    · exact fun s hs => (hmodule (hs.2.symm.trans hs.1.2.1)).elim

lemma alike_enter_declared {run : Declare Unit}
    (hrun : ∀ m, Declares m but {} run) {module : String} :
    Declares m but p (Declarations.enter run module) := by
  have hI := tolerant_declared but m
  refine (hI.reads reads_getWorld).bind fun _ => (hI.reads reads_getFrame).bind fun f => ?_
  refine .ite ((hI.aside developing_setCurrent).bind fun _ => ?_) (.pure _)
  refine Alike.bind ?_ fun _ => hI.aside developing_setCurrent
  refine alike_elsewhere_of (E := fun _ => True) (Q := fun f => f.module = m)
    (fun _ _ hf => hf) _ _ _
    (Alike.post (.ite (hrun module) ?_) fun s hs => hs.2.2)
  exact (tolerant_declared but module).aside developing_declareModule

lemma alike_analyze_declared (m : String) (but : String → String → Prop) :
    Declares m but {} (analyze depth) := by
  induction depth generalizing m but with
  | zero => exact (tolerant_declared but m).throws
  | succ depth ih =>
    have himports (but : String → String → Prop) (q : Place) :
        Imports Any (Opens m but) q (Declarations.enter (analyze depth)) :=
      importing_declared.imports fun _ => alike_enter_declared (fun m => ih m but)
    refine ((tolerant_declared but m).reads reads_program).bind fun _ => ?_
    exact alike_program_declared himports

lemma declared_analyze {u : Unit} (hrun : analyze depth s = (.ok u, t))
    (hplace : ({} : Place).At s.frame) (hs : s.world.Declared but) : t.world.Declared but :=
  ((alike_analyze_declared s.frame.module but).keeps ⟨hplace, rfl, hs⟩ hrun).2.2

end Declarations

namespace Flow

lemma following_declared : Following Any Any (fun s => s.world.Declared but) := by
  have hI : Tolerant World.Enriches Any Any (fun s : Walk Flow => s.world.Declared but) :=
    tolerant_of_world .refl (fun w _ _ => w.enriches_scopes w.scopes.adds_create)
      (fun _ _ hw => hw.enriches) (.recountable but) fun _ _ => trivial
  refine ⟨hI, fun _ _ hs => hs, fun p _ module => ?_, upholds_makeKnown hI fun s _ _ hs => ?_⟩
  · refine upholds_redeclare_of (E := fun _ => True) ?_
    exact (Declarations.alike_analyze_declared module but).post fun s hs => hs.2.2
  · exact ⟨hs.listed, hs.inner, hs.keyed⟩

lemma declared_analyze {s t : Walk Flow} {u : Unit} (hrun : analyze fuel s = (.ok u, t))
    (hs : s.world.Declared but) : t.world.Declared but := by
  have hkept := upholds_analyze (E := fun _ => True) following_declared (.recountable but) fuel
    (.ofFrame s.frame)
  exact (hkept.alike.keeps ⟨Place.at_of_eq rfl rfl rfl, hs⟩ hrun).2

end Flow

end SinkTrace
