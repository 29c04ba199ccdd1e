import SinkTrace.Proofs.Walk.CallEdges
import SinkTrace.Proofs.Walk.Counting
import SinkTrace.Proofs.Walk.Declarations

/-!
# Nameless functions

The pass that declares and the pass that draws the call graph count nameless functions anew, each
for itself, and they do not come to the same parts of a node: the arguments of a call, the default
values of parameters, decorators, what a loop runs over and what a variable with a hint starts with
are visited by one of them only, or by each in its own way. Where no nameless function is in such a
part, both passes number them in the same order.
-/

namespace SinkTrace

open Act Walk Node List

variable {ls marks : List Nat} {names : List String} {p : Place} {c c' : Nat}

/-! ### The pass that declares -/

namespace Declarations

variable {v w : Node → Declare Unit} {enter : String → Declare Unit} {n : Node}
  {K : Walk Declarations → Prop}

def visitInOrder (alarm : Fault) (names : List String) (marks : List Nat)
    (enter : String → Declare Unit) : Nat → Node → Declare Unit
  | 0, _ => throw .tooDeep
  | fuel + 1, n =>
      inOrder alarm names marks (rule (visitInOrder alarm names marks enter fuel) enter) n

lemma stable_enriches (hK : Steady K) : Stable K (Aside World.Enriches) := by
  intro s t hs hst
  obtain ⟨_, _, _, hframe⟩ := hst.frame
  exact hK s t (by rw [hframe]) (by rw [hframe]) hst.world.graph hs

lemma declaring_counted (names : List String) (hK : Steady K) (c : Nat) :
    Declaring (Apart names) Any (Counting K names c) := by
  refine declaring_of_classes ?_ (fun _ _ _ s hs => ?_) fun _ _ _ s hs => ?_
  · refine tolerant_counted (fun _ _ h => h.counts) .refl (fun w _ _ => ?_) hK
      (stable_enriches hK) c
    exact w.enriches_scopes w.scopes.adds_create
  · exact ⟨rfl, hs.1, hs.2.1, hK s _ rfl rfl rfl hs.2.2⟩
  · exact ⟨rfl, hs.1, hs.2.1, hK s _ rfl rfl rfl hs.2.2⟩

lemma countsAt_rule (hK : Steady K) (hnames : Rooted names) (hp : p.names = names)
    (himports : ∀ c q, Imports Any (Counting K names c) q enter)
    (hfits : ∀ q n, Fits names q n → ∀ c, CountsAt K names q c c (v n) (w n)) (hn : IsPart n)
    (hunshared : ∀ m ∈ n.unshared, m.Plain)
    (hshared : CountsAt K names p (c + n.ownMark.length) c' (n.shared.forM v) (n.shared.forM w)) :
    CountsAt K names p c c' (rule v enter n) (rule w enter n) := by
  have hI (c : Nat) : Declaring (Apart names) Any (Counting K names c) :=
    declaring_counted names hK c
  have hD (name : String) : Apart names (p.names ++ [name]) := hp ▸ apart_inner hnames name
  have hplain (n : Node) (hn : n.Plain) := hfits p n (.inr ⟨hn, hnames, hp⟩)
  have hinside (q : Place) (hq : p.Holds q) (n : Node) (hn : IsPart n) :=
    hfits q n (.inl ⟨hn, .of_holds hD hq⟩)
  unfold rule
  split
  · exact absurd rfl (hn _)
  · next f =>
    refine CountsAt.of_nil (alike_functionDef (hI c) (hD _) (himports c p) (fun d hd => ?_)
      fun s _ => hinside _ p.holds_inFunction _ isPart_stmt c) hshared
    refine hplain _ (hunshared _ ?_) c
    simp only [unshared, exprs, mem_map]
    exact ⟨d, mem_append_right _ hd, rfl⟩
  · refine CountsAt.of_nil (alike_classDef (hI c) (hD _) (himports c p) fun s _ => ?_) hshared
    exact hinside _ p.holds_inClass _ isPart_stmt c
  · next body _ =>
    have hbody : CountsAt K names p c c' ((stmts body).forM v) ((stmts body).forM w) := hshared
    refine alike_forLoop (hI c).toTolerant ?_
    simpa only [stmts, forM_map] using hbody
  · next loc targets value =>
    rcases assign_parts loc targets value with ⟨l, k, marked, rfl⟩ | ⟨hvalue, htargets⟩
    · refine CountsAt.of_nil (alike_assignment (hI c).toTolerant (himports c p) hereditary_plain
        (fun n hn => hplain n hn c) (hunshared _ ?_) fun t ht => hunshared _ ?_) hshared
      · simp [unshared, exprs]
      · simp [unshared, exprs, ht]
    · rw [hvalue] at hshared
      rw [htargets] at hunshared
      have hassign := (hI c').assign_from (alike_assignRule fun n hn => hplain n hn c')
        hereditary_plain (CountsAt.of_singleton hshared) fun t (ht : t ∈ targets) =>
        hunshared _ (mem_map_of_mem ht)
      refine .ite ((hI c).mapOwn.bind fun _ => ?_) hassign
      refine ((himports c p).all (hI c).toTolerant fun _ => ?_).bind fun _ => hassign
      exact Imports.importingFrom (hI c).toTolerant
  · refine CountsAt.of_nil (alike_hinted (hI c).toTolerant (himports c p) hereditary_plain
      (fun n hn => hplain n hn c) (hunshared _ ?_) fun e he => hunshared _ ?_) hshared
    · simp [unshared]
    · simp [unshared, opt, he]
  · exact (hI c').returns hshared
  · exact (hI c').returns hshared
  · exact (hI c').returns hshared
  · next exc _ => cases exc <;> exact (hI c').raises hshared
  · exact alike_tryBlock (hI c).toTolerant (hI c').toTolerant hshared
  · exact alike_handler (hI c).toTolerant hshared
  · refine CountsAt.of_nil (alike_call (hI c).toTolerant (hplain _ (hunshared _ ?_) c)
      (fun a ha => hplain _ (hunshared _ ?_) c) fun k hk => hplain _ (hunshared _ ?_) c) hshared
    · simp [unshared, exprs]
    · simp [unshared, exprs, ha]
    · simp only [unshared, exprs, mem_map]
      exact ⟨k.value, mem_append_right _ (mem_map_of_mem hk), rfl⟩
  · next loc params body =>
    refine CountsAt.of_nil (alike_lambda (hI (c + 1)).toTolerant (alike_nextLambda hK hnames hp)
      (fun d hd => hplain _ (hunshared _ (mem_map_of_mem hd)) _) fun _ => ?_) hshared
    exact hinside _ p.holds_inFunction _ (isPart_expr body) _
  · next hcommon =>
    refine countsAt_common (fun c => (hI c).toTolerant) hD hinside ?_ hshared
    unfold isCommon
    split <;> grind

section Visit

variable (hK : Steady K) (himports : ∀ c q, Imports Any (Counting K names c) q enter)
  (alarm : Fault) (marks : List Nat) {fuel : Nat}

include hK himports

lemma countsAt_fitting (hn : Fits names p n) :
    CountsAt K names p c c (visit enter fuel n) (visitInOrder alarm names marks enter fuel n) := by
  have hI : Declaring (Apart names) _ _ := declaring_counted names hK c
  induction fuel generalizing p n with
  | zero => exact hI.throws
  | succ fuel ih =>
    have hrule := hI.rule hn.deeper (fun _ _ _ => Fits.of_lambda)
      (fun body hbody => absurd rfl (hbody.isPart body)) (himports c) Fits.hereditary
      ⟨fun _ hm => ih hm, fun _ hq _ hm => ih (hn.inside hq hm)⟩ hn
    exact alike_inOrder hrule fun s hs => hn.not_misnames hs.1

lemma countsAt_visit (hnames : Rooted names) (fuel depth : Nat) (hp : p.names = names)
    (hn : n.nameless? depth = some ls)
    (hls : ls <+: marks.drop c) :
    CountsAt K names p c (c + ls.length) (visit enter fuel n)
      (visitInOrder alarm names marks enter fuel n) := by
  induction fuel generalizing depth n ls c with
  | zero => exact (declaring_counted names hK c).throws
  | succ fuel ih =>
    refine countsAt_node (fun d n _ c => ih d) hn hls fun _ hpart hunshared hshared => ?_
    refine countsAt_rule hK hnames hp himports (fun q n hn c => ?_) hpart hunshared hshared
    exact countsAt_fitting hK himports alarm marks hn

end Visit

/-! ### Other modules -/

/-- Every module that the walk may still enter is apart from the blocks `names`. -/
def Clear (names : List String) (s : Walk Declarations) : Prop :=
  ∀ m ∉ s.frame.analyzed.names, Text.endsWith (s.world.imports.fileOf m) ".py" = true → m ≠ "" →
    Apart names [m]

/-- The condition is that the walk is clear, and may say something about the module it is in. -/
structure Guards (names : List String) (K : Walk Declarations → Prop) : Prop where
  clear : ∀ s, K s → Clear names s
  back : ∀ s t, K s → Clear names t → t.frame.module = s.frame.module → K t

lemma Guards.steady (h : Guards names K) : Steady K := by
  intro s t hmodule hanalyzed hgraph hs
  refine h.back s t hs (fun m hm hfile => h.clear s hs m (hanalyzed ▸ hm) ?_) hmodule
  rwa [Imports.fileOf, Imports.node?, hgraph] at hfile

lemma guards_clear : Guards names (Clear names) := ⟨fun _ hs => hs, fun _ _ _ ht _ => ht⟩

/-- The walk is in a module that is apart from the blocks. -/
def Abroad (names : List String) (s : Walk Declarations) : Prop :=
  Clear names s ∧ Apart names [s.frame.module]

lemma guards_abroad : Guards names (Abroad names) where
  clear _ hs := hs.1
  back _ _ hs ht hmodule := ⟨ht, hmodule ▸ hs.2⟩

lemma Guards.countsAt_enter (hK : Guards names K) {run : Declare Unit}
    (hrun : CountsAt (Abroad names) names {} c c run run) {m : String} (hm : m ≠ "") :
    Alike Any (fun s => Here p (Counting K names c) s ∧ m ∉ s.frame.analyzed.names)
      (Here p (Counting K names c)) (Declarations.enter run m) (Declarations.enter run m) := by
  have hI := declaring_counted names hK.steady c
  have hdeclare : CountsAt (Abroad names) names {} c c declareModule declareModule :=
    (declaring_counted names guards_abroad.steady c).aside developing_declareModule
  refine .look (fun _ => rfl) fun w => .look (fun _ => rfl) fun f => ?_
  dsimp only
  by_cases hfile : Text.endsWith (w.imports.fileOf m) ".py" = true
  · rw [if_pos hfile]
    rintro s ⟨⟨⟨hs, hnew⟩, rfl⟩, rfl⟩
    have hapart := hK.clear s hs.2.2 m hnew hfile hm
    refine ((hI.aside developing_setCurrent).bind fun _ => Alike.bind
      (J := Here p (Counting K names c)) ?_ fun _ => hI.aside developing_setCurrent) s hs
    rintro s ⟨hp, hcount, hs⟩
    refine alike_run_elsewhere (Alike.ite hrun hdeclare _
      ⟨Place.at_of_eq rfl rfl rfl, hcount, fun m' hm' => hK.clear s hs m' ?_, hapart⟩)
      (fun _ _ => trivial) fun t ht => ⟨⟨hp.names, hp.methods, hp.classes⟩, ht.2.1, ?_⟩
    · exact fun hmem => hm' (mem_insertEnd_iff.mpr (.inr hmem))
    · refine hK.back s _ hs (fun m' hm' => ht.2.2.1 m' fun hmem => hm' ?_) rfl
      exact Names.mem_union.mpr (.inr hmem)
  · rw [if_neg hfile]
    exact fun s hs => ⟨rfl, hs.1.1.1⟩

lemma countsAt_program {fuel : Nat} {body : List Stmt}
    (himports : ∀ c q, Imports Any (Counting (Abroad names) names c) q enter) :
    CountsAt (Abroad names) names {} c c (visit enter fuel (.program body))
      (visit enter fuel (.program body)) := by
  have hK : Steady (Abroad names) := guards_abroad.steady
  have hI := (declaring_counted names hK c).toTolerant
  have hrenumbers : Renumbers (Counting (Abroad names) names c) := by
    refine fun s f _ hs => ⟨(lambdas_modify_of_ne fun heq => ?_).trans hs.1,
      hK s _ rfl rfl rfl hs.2⟩
    exact hs.2.2.ne [] heq.symm
  cases fuel with
  | zero => exact hI.throws
  | succ fuel =>
    refine (hI.aside developing_declareModule).bind fun _ => Alike.bind ?_ fun _ =>
      (himports c {}).initial hI
    refine hI.inModule_of hrenumbers fun module => ?_
    rintro s ⟨hs, rfl⟩
    refine Alike.bind (.forM fun st _ => Upholds.alike ?_) (fun _ => (himports c _).initial hI) s hs
    exact (countsAt_fitting hK himports .absent [] (.inl ⟨isPart_stmt, hs.2.2.2⟩)).upholds

/-- In another module nothing is counted for the blocks `names`. -/
lemma countsAt_analyze (depth : Nat) :
    CountsAt (Abroad names) names {} c c (analyze depth) (analyze depth) := by
  induction depth generalizing c with
  | zero => exact (declaring_counted names guards_abroad.steady c).throws
  | succ depth ih =>
    refine ((declaring_counted names guards_abroad.steady c).reads reads_program).bind
      fun body => ?_
    refine countsAt_program fun c q =>
      (declaring_counted names guards_abroad.steady c).imports_of ?_
    exact fun m hm => guards_abroad.countsAt_enter ih hm

end Declarations

/-! ### The pass that draws -/

namespace CallEdges

variable {v w : Node → Draw Unit} {again again' : CallForm → Draw Unit}

mutual

def visitInOrder (alarm : Fault) (names : List String) (marks : List Nat) : Nat → Node → Draw Unit
  | 0, _ => throw .tooDeep
  | fuel + 1, n =>
    inOrder alarm names marks
      (rule (visitInOrder alarm names marks fuel) (visitCallInOrder alarm names marks fuel)) n

def visitCallInOrder (alarm : Fault) (names : List String) (marks : List Nat) :
    Nat → CallForm → Draw Unit
  | 0, _ => throw .tooDeep
  | fuel + 1, c =>
    let text := (Expr.call (c.loc.getD {}) c.func (c.args.getD []) c.keywords).text?
    call (visitInOrder alarm names marks fuel) (visitCallInOrder alarm names marks fuel) c text

end

abbrev DrawsAt := CountsAt (ρ := CallEdges) Any

lemma tolerant_counted_draws (names : List String) (c : Nat) :
    Tolerant World.Draws (Apart names) Any (Counting (ρ := CallEdges) Any names c) :=
  tolerant_counted (fun _ _ h => h.counts) .refl World.draws_create (fun _ _ _ _ _ hs => hs)
    (fun _ _ hs _ => hs) c

lemma countsAt_rule (hnames : Rooted names) (hp : p.names = names)
    (hfits : ∀ q n, Fits names q n → ∀ c, DrawsAt names q c c (v n) (w n))
    (hagain : ∀ f, Parts (Fits names p) f → ∀ c, DrawsAt names p c c (again f) (again' f))
    {n : Node} (hn : IsPart n) (hunshared : ∀ m ∈ n.unshared, m.Plain)
    (hshared : DrawsAt names p (c + n.ownMark.length) c' (n.shared.forM v) (n.shared.forM w)) :
    DrawsAt names p c c' (rule v again n) (rule w again' n) := by
  have hI (c : Nat) := tolerant_counted_draws names c
  have hD (name : String) : Apart names (p.names ++ [name]) := hp ▸ apart_inner hnames name
  have hplain (n : Node) (hn : n.Plain) := hfits p n (.inr ⟨hn, hnames, hp⟩)
  have hinside (q : Place) (hq : p.Holds q) (n : Node) (hn : IsPart n) :=
    hfits q n (.inl ⟨hn, .of_holds hD hq⟩)
  unfold rule
  split
  · exact absurd rfl (hn _)
  · refine CountsAt.of_nil (alike_functionDef (hI c) (hD _)
      (fun d hd => hplain _ (hunshared _ ?_) c)
      fun s _ => hinside _ p.holds_inFunction _ isPart_stmt c) hshared
    simp only [unshared, exprs, mem_map]
    exact ⟨d, mem_append_left _ hd, rfl⟩
  · refine CountsAt.of_nil ((hI c).mapOwn.bind fun _ => (hI c).classBody (hD _) fun s _ => ?_)
      hshared
    exact hinside _ p.holds_inClass _ isPart_stmt c
  · next body _ =>
    have hbody : DrawsAt names p c c' ((stmts body).forM v) ((stmts body).forM w) := hshared
    refine alike_forLoop (hI c) (hplain _ (hunshared _ ?_) c) (hplain _ (hunshared _ ?_) c) ?_
    · simp [unshared]
    · simp [unshared]
    · simpa only [stmts, forM_map] using hbody
  · exact alike_raising (hI c') (CountsAt.of_singleton hshared)
  · exact hshared
  · next loc targets value =>
    split
    · exact hshared
    · next hconstant =>
      rcases assign_parts loc targets value with ⟨l, k, marked, rfl⟩ | ⟨hvalue, -⟩
      · exact absurd rfl (hconstant l k marked)
      · rw [hvalue] at hshared
        refine (CountsAt.of_singleton hshared).bind fun _ => (hI c').aside (.forM fun t _ => ?_)
        exact drawing_noteTaints
  · exact alike_returned (hI c') hshared
  · exact alike_returned (hI c') hshared
  · have hfit (m : Node) (hm : m ∈ _) : Fits names p m := .inr ⟨hunshared m hm, hnames, hp⟩
    refine CountsAt.of_nil (hagain _ ⟨hfit _ ?_, fun a ha => hfit _ ?_, fun k hk => hfit _ ?_⟩ c)
      hshared
    · simp [unshared, exprs]
    · simp only [Option.getD_some] at ha
      simp [unshared, exprs, ha]
    · simp only [unshared, exprs, mem_map]
      exact ⟨k.value, mem_append_right _ (mem_map_of_mem hk), rfl⟩
  · next loc params body =>
    refine CountsAt.of_nil (alike_lambda (hI (c + 1)) (alike_nextLambda
      (fun _ _ _ _ _ hs => hs) hnames hp) (fun _ => ?_)
      again again' loc params) hshared
    exact hinside _ p.holds_inFunction _ (isPart_expr body) _
  · by_cases hhint : ∃ loc target hint value simple, n =
      .stmt (.annAssign loc target hint value simple)
    · obtain ⟨loc, target, hint, value, simple, rfl⟩ := hhint
      exact CountsAt.of_nil (.forM fun m hm => hplain m (hunshared m hm) c) hshared
    · refine countsAt_common hI hD hinside ?_ hshared
      unfold isCommon
      split <;> grind

section Visit

variable (alarm : Fault) (marks : List Nat)

lemma countsAt_fitting (fuel : Nat) (p : Place) (c : Nat) : (∀ n, Fits names p n →
        DrawsAt names p c c (visit fuel n) (visitInOrder alarm names marks fuel n)) ∧
      ∀ f, Parts (Fits names p) f →
        DrawsAt names p c c (visitCall fuel f) (visitCallInOrder alarm names marks fuel f) := by
  have hI := tolerant_counted_draws names c
  induction fuel generalizing p with
  | zero => exact ⟨fun _ _ => hI.throws, fun _ _ => hI.throws⟩
  | succ fuel ih =>
    obtain ⟨hvisit, hcall⟩ := ih p
    refine ⟨fun n hn => ?_, fun f hf => ?_⟩
    · have hrule := alike_rule hI hn.deeper (fun _ _ _ => Fits.of_lambda)
        (fun body hbody => absurd rfl (hbody.isPart body)) Fits.hereditary
        ⟨hvisit, fun q hq m hm => (ih q).1 m (hn.inside hq hm)⟩ hcall hn
      exact alike_inOrder hrule fun s hs => hn.not_misnames hs.1
    · exact alike_call hI Fits.hereditary hvisit (fun e he heval m hm =>
        hvisit m (he.of_eval heval hm))
        hcall hf

lemma countsAt_visit (hnames : Rooted names) (fuel depth : Nat) (hp : p.names = names) {n : Node}
    (hn : n.nameless? depth = some ls) (hls : ls <+: marks.drop c) :
    DrawsAt names p c (c + ls.length) (visit fuel n) (visitInOrder alarm names marks fuel n) := by
  induction fuel generalizing depth n ls c with
  | zero => exact (tolerant_counted_draws names c).throws
  | succ fuel ih =>
    refine countsAt_node (fun d n _ c => ih d) hn hls fun _ hpart hunshared hshared => ?_
    refine countsAt_rule hnames hp (fun q n hn c => ?_) (fun f hf c => ?_) hpart hunshared hshared
    · exact (countsAt_fitting alarm marks fuel q c).1 n hn
    · exact (countsAt_fitting alarm marks fuel p c).2 f hf

end Visit

end CallEdges

def nameless (mark : Nat) (body : Expr) : Expr :=
  .lambda { mark } ⟨[], [], none, [], [], none, []⟩ body

def twoNameless : List Stmt :=
  let call := Expr.call {} (.name {} "g") [.name {} "c"] []
  [.assign {} [.name {} "h"] (nameless 3 call), .expr {} call,
    .assign {} [.name {} "k"] (.tuple {} [nameless 9 (.name {} "c"), .name {} "h"])]

def inMain : Walk CallEdges :=
  { world := { scopes := Scopes.create {} "m.main" none }
    frame := { file := "m.py", module := "m", names := ["m", "main"], methods := ["m", "main"] }
    own := {} }

/-- The module is analysed, and another one may still be entered. -/
def declaringMain : Walk Declarations where
  world := { inMain.world with
    defs := { current := ⟨[("m.main", { ns := "m.main", kind := .function, module := none })]⟩ }
    imports := { graph := ⟨[("a", { filename := "a.py" })]⟩ } }
  frame := { inMain.frame with analyzed := { names := ["m"] } }
  own := {}

lemma clear_declaringMain : Declarations.Clear ["m", "main"] declaringMain := by
  intro m _ hfile _
  have hm : m = "a" := by
    by_contra hne
    have hnone : declaringMain.world.imports.fileOf m = "" := by
      simp [declaringMain, Imports.fileOf, Imports.node?, Table.get?, Ne.symm hne]
    rw [hnone] at hfile
    revert hfile
    decide
  subst hm
  refine ⟨by simp [Rooted], fun rest heq => ?_⟩
  have hhead := congrArg (·.toList.head?) heq
  cases rest <;> simp [Text.dotted, String.intercalate_cons_cons] at hhead

/-- A nameless function is passed to a function whose calls are left out of the graph. -/
def leftOutCall : FileTree := FileTree.ofTexts [("m.py",
  "def error(x):\n pass\ndef main(c):\n error(lambda: 1)\n h = lambda: exec(c)\n exec(c)\n")]

end SinkTrace
