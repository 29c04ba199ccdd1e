import SinkTrace.Proofs.Walk.CallEdges
import SinkTrace.Proofs.Walk.Flow.Visit
import SinkTrace.Proofs.Walk.ImportLinks.Visit
import SinkTrace.Proofs.Walk.KeyMisses
import SinkTrace.Proofs.Walk.SinkSites

/-!
# Places follow the text

A visit that ends well leaves the walk at the place where it started. So the statements of a
function or a class are visited inside a block of its name. To say so, the walk is watched: a
watched visit raises an alarm where a statement is visited outside the blocks that it should be in.
Watched or not, the rule of a pass does the same at a definition.
-/

namespace SinkTrace

namespace Walk

open Act

variable {ρ : Type} {p : Place} {visit : Node → Roam ρ Unit}

/-- Visits that raise an alarm at a statement outside the given blocks. -/
def watch (alarm : Fault) (names : List String) (visit : Node → Roam ρ Unit) : Node → Roam ρ Unit
  | .stmt s => do
    if (← getFrame).names ≠ names then throw alarm
    visit (.stmt s)
  | n => visit n

/-- How a pass nests: whether its functions are blocks if they are asynchronous, and whether its
places are loose. -/
structure Nesting where
  asyncBlocks : Bool := true
  loose : Bool := false

variable {nesting : Nesting}

namespace Nesting

def Keeps (nesting : Nesting) (names : List String) : Prop :=
  nesting.loose = true → names.head? ≠ some ""

/-- The blocks around the statements of a definition that stands in the blocks `names`. -/
def bodyNames? (nesting : Nesting) (names : List String) : Node → Option (List String)
  | .stmt (.functionDef f) =>
    some (if !nesting.asyncBlocks && f.isAsync then names else names ++ [f.name])
  | .stmt (.classDef c) => some (names ++ [c.name])
  | _ => none

/-- The place of the statements of a function that stands at `p`. -/
def bodyPlace (nesting : Nesting) (p : Place) (f : Function Stmt) : Place :=
  if !nesting.asyncBlocks && f.isAsync then p else p.inFunction f.name

lemma loose_bodyPlace (nesting : Nesting) {f : Function Stmt} :
    (nesting.bodyPlace p f).loose = p.loose := by
  unfold bodyPlace
  split_ifs <;> rfl

end Nesting

/-- The pass comes back to the place of a node, and visits a body inside its block. -/
structure KeepsPlace (nesting : Nesting)
    (rule : (Node → Roam ρ Unit) → Node → Roam ρ Unit)
    (visit : Node → Roam ρ Unit) : Prop where
  returns : ∀ n s t, nesting.Keeps s.frame.names → visit n s = (.ok (), t) →
    Place.ofFrame t.frame = .ofFrame s.frame
  nests : ∀ n s names, nesting.bodyNames? s.frame.names n = some names → nesting.Keeps names →
    ∀ alarm, rule (watch alarm names visit) n s = rule visit n s

abbrev StaysAt {α : Type} (p : Place) (a b : Roam ρ α) : Prop := AlikeAt Any Any p a b

lemma tolerant_true {X : World → World → Prop} (hrefl : ∀ w, X w w)
    (hcreate : ∀ (w : World) ns parent, X w { w with scopes := w.scopes.create ns parent }) :
    Tolerant (ρ := ρ) X Any Any Any :=
  tolerant_of_world hrefl hcreate (fun _ _ _ _ => trivial)
    (fun _ _ _ _ _ => trivial) fun _ _ => trivial

lemma renumbers_true : Renumbers fun _ : Walk ρ => True := fun _ _ _ _ => trivial

lemma place_of_staysAt {a : Roam ρ Unit} {s t : Walk ρ}
    (h : StaysAt { Place.ofFrame s.frame with loose := nesting.loose } a a)
    (hnames : nesting.Keeps s.frame.names) (hrun : a s = (.ok (), t)) :
    Place.ofFrame t.frame = .ofFrame s.frame := by
  have hat := (h.keeps ⟨Place.at_of_eq rfl rfl rfl, trivial⟩ hrun).1
  have hback : t.frame.names = s.frame.names := hat.names_eq hnames
  have hmethods : t.frame.methods = s.frame.methods := hat.methods
  have hclasses : t.frame.classes = s.frame.classes := hat.classes
  simp only [Place.ofFrame, hback, hmethods, hclasses]

lemma staysAt_watch (hvisit : ∀ n, StaysAt p (visit n) (visit n)) {alarm : Fault}
    (hp : p.loose → p.names.head? ≠ some "") {n : Node} :
    StaysAt p (watch alarm p.names visit n) (visit n) := by
  cases n with
  | stmt s =>
    rintro t ht
    have hsame : watch alarm p.names visit (.stmt s) t = visit (.stmt s) t := by
      have hnames : t.frame.names = p.names := ht.1.names_eq hp
      change (if t.frame.names ≠ p.names then throw alarm >>= fun _ => visit (.stmt s)
        else visit (.stmt s)) t = visit (.stmt s) t
      rw [if_neg (not_not.mpr hnames)]
    obtain ⟨-, hend⟩ := hvisit (.stmt s) t ht
    exact ⟨hsame, hsame ▸ hend⟩
  | _ => exact hvisit _

lemma keepsPlace_of_rule {rule : (Node → Roam ρ Unit) → Node → Roam ρ Unit}
    (hvisit : ∀ p n, p.loose = nesting.loose → StaysAt p (visit n) (visit n))
    (hfunction : ∀ p f v, (∀ e, StaysAt p (v (.expr e)) (visit (.expr e))) →
      (∀ n, StaysAt (nesting.bodyPlace p f) (v n) (visit n)) →
      StaysAt p (rule v (.stmt (.functionDef f))) (rule visit (.stmt (.functionDef f))))
    (hclass : ∀ p c v, (∀ e, StaysAt p (v (.expr e)) (visit (.expr e))) →
      (∀ n, StaysAt (p.inClass c.name) (v n) (visit n)) →
      StaysAt p (rule v (.stmt (.classDef c))) (rule visit (.stmt (.classDef c)))) :
    KeepsPlace nesting rule visit where
  returns n s t hnames hrun := place_of_staysAt (hvisit _ n rfl) hnames hrun
  nests n s names hbody hnames alarm := by
    let p : Place := { Place.ofFrame s.frame with loose := nesting.loose }
    have hexpr (e : Expr) : StaysAt p (watch alarm names visit (.expr e)) (visit (.expr e)) :=
      hvisit p (.expr e) rfl
    have hwatch {q : Place} (hloose : q.loose = nesting.loose) (hq : q.names = names) (n : Node) :
        StaysAt q (watch alarm names visit n) (visit n) := by
      subst hq
      exact staysAt_watch (fun n => hvisit q n hloose) (fun h => hnames (hloose ▸ h))
    have hstart : p.At s.frame ∧ True := ⟨Place.at_of_eq rfl rfl rfl, trivial⟩
    unfold Nesting.bodyNames? at hbody
    split at hbody
    · next f =>
      have hplace : (nesting.bodyPlace p f).names = names := by
        rw [← Option.some.inj hbody, Nesting.bodyPlace]
        split_ifs <;> rfl
      exact (hfunction p f _ hexpr (hwatch nesting.loose_bodyPlace hplace) s hstart).1
    · next c => exact (hclass p c _ hexpr (hwatch rfl (Option.some.inj hbody)) s hstart).1
    · cases hbody

end Walk

open Walk

/-! ### The passes -/

lemma SinkSites.keepsPlace (fuel : Nat) : KeepsPlace {} rule (visit fuel) := by
  have hI : Locating Any Any Any :=
    locating_of_surveys (fun _ _ _ _ => trivial) (fun _ _ => trivial) fun _ _ _ _ _ => trivial
  refine keepsPlace_of_rule (fun p n _ => (hI.visit fuel fun _ _ _ => trivial).alike)
    (fun p f v _ h => ?_)
    fun p c v _ h => ?_
  · exact hI.functionDef fun s _ => h (.stmt s)
  · exact hI.classDef fun s _ => h (.stmt s)

namespace ImportLinks

/-- What the pass does at the imports of a file, if it may go on to some depth. -/
def follow (depth : Nat) : Import → Link Unit :=
  importing (importName renew (enter (analyze depth)))

lemma linking_true : Linking Any Any :=
  linking_of_surveys (fun _ _ _ _ => trivial) (fun _ _ => trivial) fun _ _ _ _ _ => trivial

lemma staysAt_visit {depth fuel : Nat} (p : Place) (n : Node) (hp : p.loose) :
    StaysAt p (visit (follow depth) fuel n) (visit (follow depth) fuel n) := by
  have hfollow (p : Place) (i : Import) : StaysAt p (follow depth i) (follow depth i) :=
    linking_true.importing (entering_of_world (I := fun _ => True) linking_true
      (upholds_analyze (I := fun _ => True) linking_true (fun _ _ _ => trivial) depth rfl)) i
  exact (linking_true.visit hfollow fuel).1 p n hp

lemma keepsPlace (depth fuel : Nat) :
    KeepsPlace { loose := true } (fun v => rule v (visitCall (follow depth) fuel) (follow depth))
      (visit (follow depth) fuel) := by
  refine keepsPlace_of_rule staysAt_visit (fun p f v _ h => ?_) fun p c v _ h => ?_
  · exact linking_true.functionDef fun s _ => h (.stmt s)
  · exact linking_true.classDef fun s _ => h (.stmt s)

end ImportLinks

namespace Declarations

lemma declaring_true : Declaring Any Any Any :=
  declaring_of_classes (tolerant_true .refl fun w _ _ => w.enriches_scopes w.scopes.adds_create)
    (fun _ _ _ _ hs => ⟨rfl, hs⟩) fun _ _ _ _ hs => ⟨rfl, hs⟩

lemma imports_true (depth : Nat) (p : Place) : Imports Any Any p (enter (analyze depth)) :=
  declaring_true.imports (alike_enter (E := fun _ => True) (I := fun _ => True) declaring_true
    (alike_analyze (E := fun _ => True) (I := fun _ => True) declaring_true
      (fun _ _ _ _ _ => trivial)
      depth {}) p)

lemma keepsPlace (depth fuel : Nat) :
    KeepsPlace {} (fun v => rule v (enter (analyze depth)))
    (visit (enter (analyze depth)) fuel) := by
  have himports := imports_true depth
  refine keepsPlace_of_rule (fun p n _ => declaring_true.visit renumbers_true himports p n)
    (fun p f v he h => ?_) fun p c v _ h => ?_
  · exact alike_functionDef declaring_true trivial (himports p) (fun d _ => he d)
      fun s _ => h (.stmt s)
  · exact alike_classDef declaring_true trivial (himports p) fun s _ => h (.stmt s)

end Declarations

namespace Flow

lemma following_true : Following Any Any Any where
  toTolerant :=
    tolerant_true .refl fun w _ _ => w.enriches_scopes w.scopes.adds_create
  analyzed _ _ _ := trivial
  redeclare := upholds_redeclare (E := fun _ => True) (I := fun _ => True)
    Declarations.declaring_true fun _ _ _ _ _ => trivial
  makeKnown p full name s hs := by
    have hend := following_develops.makeKnown p full name s ⟨hs.1, .refl _⟩
    rcases hrun : makeKnown full name s with ⟨_ | v, t⟩
    · trivial
    · rw [hrun] at hend
      exact ⟨hend.1, trivial⟩

lemma keepsPlace (fuel : Nat) : KeepsPlace {} (fun v => rule v (visitCall fuel)) (visit fuel) := by
  refine keepsPlace_of_rule
    (fun p n _ => ((following_true.visit renumbers_true p).1 n).alike) (fun p f v _ h => ?_)
    fun p c v he h => ?_
  · exact alike_functionDef following_true trivial fun s _ => h (.stmt s)
  · exact alike_classDef following_true trivial (fun b _ => he b) fun s _ => h (.stmt s)

end Flow

lemma CallEdges.keepsPlace (fuel : Nat) :
    KeepsPlace {} (fun v => rule v (visitCall fuel)) (visit fuel) := by
  have hI : Tolerant (ρ := CallEdges) World.Draws Any Any Any :=
    tolerant_true .refl World.draws_create
  refine keepsPlace_of_rule (fun p n _ => (alike_visit hI renumbers_true p).1 n)
    (fun p f v he h => ?_) fun p c v _ h => ?_
  · exact alike_functionDef hI trivial (fun d _ => he d) fun s _ => h (.stmt s)
  · exact hI.mapOwn.bind fun _ => hI.classBody trivial fun s _ => h (.stmt s)

lemma KeySearch.keepsPlace (fuel : Nat) :
    KeepsPlace { asyncBlocks := false } rule (visit fuel) := by
  have hI : Tolerant (ρ := KeySearch) World.Enriches Any Any Any :=
    tolerant_true .refl fun w _ _ => w.enriches_scopes w.scopes.adds_create
  refine keepsPlace_of_rule (fun p n _ => alike_visit hI renumbers_true p n)
    (fun p f v _ h => ?_) fun p c v _ h => ?_
  · change StaysAt p (if f.isAsync then _ else functionBody v f.name f.body)
      (if f.isAsync then _ else functionBody (visit fuel) f.name f.body)
    split_ifs with hasync
    · rw [Nesting.bodyPlace, if_pos (by simpa using hasync)] at h
      exact Act.Alike.forM fun n _ => h n
    · rw [Nesting.bodyPlace, if_neg (by simpa using hasync)] at h
      exact hI.functionBody trivial fun s _ => h (.stmt s)
  · exact hI.classBody trivial fun s _ => h (.stmt s)

/-- In each of the six passes, visits come back to the place where they started, and bodies are
visited inside their blocks. Only the pass for keys visits that of an asynchronous function outside
of it, and only the pass for links needs names for the outermost blocks. -/
theorem passes_keep_place (depth fuel : Nat) : KeepsPlace {} SinkSites.rule (SinkSites.visit fuel) ∧
      KeepsPlace { loose := true }
        (fun v => ImportLinks.rule v (ImportLinks.visitCall (ImportLinks.follow depth) fuel)
          (ImportLinks.follow depth))
        (ImportLinks.visit (ImportLinks.follow depth) fuel) ∧
      KeepsPlace {} (fun v => Declarations.rule v (Declarations.enter (Declarations.analyze depth)))
        (Declarations.visit (Declarations.enter (Declarations.analyze depth)) fuel) ∧
      KeepsPlace {} (fun v => Flow.rule v (Flow.visitCall fuel)) (Flow.visit fuel) ∧
      KeepsPlace {} (fun v => CallEdges.rule v (CallEdges.visitCall fuel)) (CallEdges.visit fuel) ∧
      KeepsPlace { asyncBlocks := false } KeySearch.rule (KeySearch.visit fuel) :=
  ⟨SinkSites.keepsPlace fuel, ImportLinks.keepsPlace depth fuel, Declarations.keepsPlace depth fuel,
    Flow.keepsPlace fuel, CallEdges.keepsPlace fuel, KeySearch.keepsPlace fuel⟩

def asyncFunction : Function Stmt :=
  { loc := {}, isAsync := true, name := "g", params := ⟨[], [], none, [], [], none, []⟩,
    body := [.pass {}], decorators := [], returns := none }

def asyncDict : FileTree := .ofTexts [("m.py", "async def g(c):\n exec(c)\n d={}\n d['b']\n")]

/-- The pass for keys visits the body of an asynchronous function outside of it, so a key that a
mapping there lacks is not missed. -/
theorem async_body_outside : ¬ KeepsPlace {} KeySearch.rule (KeySearch.visit 2) ∧
      (Analysis.run
        { sinkLines := some ["<builtin>:exec:0"], maxRounds := 1, operation := "key-error" }
        asyncDict).1.world.keyMisses.length = 0 := by
  refine ⟨fun h => ?_, by decide +kernel⟩
  let s : Walk KeySearch := { world := {}, frame := { file := "m.py", module := "m" }, own := {} }
  have hsame := h.nests (.stmt (.functionDef asyncFunction)) s ["g"] rfl nofun .absent
  have hresult := congrArg (fun r => r.1.isOk) hsame
  exact absurd hresult (by decide)

end SinkTrace
