import Mathlib.Data.List.TakeWhile
import SinkTrace.Proofs.Walk.Declarations

/-!
# Imports that are taken in again

The statements that are noted for a module, a function, a class or a hint are taken in by their
kind, but for those of a class and of a module that lists its public names: these must be `from`
imports.
-/

namespace SinkTrace

/-- The statements that a function or class needs for its sinks. -/
def ImportNode.forSinks (node : ImportNode) (name : String) : List Import :=
  (node.sinkImports.getD name []).filterMap node.statements.get?

def Import.isFrom : Import → Bool
  | .plain .. => false
  | .fromModule .. => true

namespace Declarations

open Walk Act

variable {enter : String → Declare Unit} {s : Walk Declarations} {node : ImportNode}

/-- Takes in the statements up to the first plain one, at which it fails. -/
def untilPlain (enter : String → Declare Unit) (is : List Import) : Declare Unit := do
  (is.takeWhile Import.isFrom).forM (importing enter)
  unless is.all Import.isFrom do throw .absent

lemma forM_importingFrom (is : List Import) :
    is.forM (importingFrom enter) = untilPlain enter is := by
  induction is with
  | nil => rfl
  | cons i is ih =>
    cases i with
    | plain => rfl
    | fromModule loc module names level =>
      have hcons : (Import.fromModule loc module names level :: is).forM (importingFrom enter)
          = importing enter (.fromModule loc module names level) >>= fun _ => untilPlain enter is :=
        congrArg _ (funext fun _ => ih)
      simp only [hcons, untilPlain, List.takeWhile_cons, List.all_cons, Import.isFrom,
        Bool.true_and,
        if_true, List.forM_eq_forM, List.forM_cons, bind_assoc]

lemma untilPlain_of_isFrom {is : List Import} (h : ∀ i ∈ is, i.isFrom) :
    untilPlain enter is = is.forM (importing enter) := by
  have hall : is.all Import.isFrom := by simpa using h
  rw [untilPlain, List.takeWhile_eq_self_iff.mpr h, hall]
  exact bind_pure _

lemma ok_untilPlain_iff (is : List Import) (s : Walk Declarations) :
    (untilPlain enter is s).1 = .ok () ↔
      (∀ i ∈ is, i.isFrom) ∧ (is.forM (importing enter) s).1 = .ok () := by
  by_cases h : ∀ i ∈ is, i.isFrom
  · rw [untilPlain_of_isFrom h, and_iff_right h]
  · have hall : is.all Import.isFrom = false := by simpa using h
    simp only [h, false_and, iff_false]
    rw [untilPlain, run_bind, hall]
    rcases (is.takeWhile Import.isFrom).forM (importing enter) s with ⟨_ | _, t⟩ <;> nofun

lemma importForSinks_eq (take : Import → Declare Unit) (name : String) :
    importForSinks take name = importNode >>= fun node => (node.forSinks name).forM take := by
  refine congrArg (importNode >>= ·) (funext fun node => ?_)
  unfold ImportNode.forSinks
  induction node.sinkImports.getD name [] with
  | nil => rfl
  | cons n ns ih =>
    simp only [List.forM_eq_forM, List.forM_cons, List.filterMap_cons] at ih ⊢
    rw [ih]
    cases node.statements.get? n <;> simp

lemma run_importNode {t : Walk Declarations}
    (hnode : t.world.imports.node? t.frame.module = some node) : importNode t = (.ok node, t) := by
  change need .kind (t.world.imports.node? t.frame.module) t = _
  rw [hnode]
  rfl

lemma run_importForSinks (hnode : s.world.imports.node? s.frame.module = some node)
    (take : Import → Declare Unit) (name : String) (rest : Unit → Declare Unit) :
    (importForSinks take name >>= rest) s = ((node.forSinks name).forM take >>= rest) s := by
  rw [importForSinks_eq, bind_assoc, run_bind, run_importNode hnode]

lemma run_importAll (hnode : s.world.imports.node? s.frame.module = some node)
    (take : Import → Declare Unit) (rest : Unit → Declare Unit) :
    (importAll take >>= rest) s = (node.statements.values.forM take >>= rest) s := by
  rw [importAll, bind_assoc, run_bind, run_importNode hnode]

/-- What is done with a variable that has a hint, once the import of the hint is taken in. -/
def declareHinted (visit : Node → Declare Unit) (target : Expr) (name : String)
    (value : Option Expr) : Declare Unit := do
  let ns := Text.dotted [← currentNs, name]
  let r ← assignTo ns (.group []) true
  bindNs ns r
  match value with
  | some (.constant l v m) => assign { visit } (.constant l v m) [target]
  | _ => pure ()

/-- Statements are taken in by their kind for a function, at the end of a first file and for a hint,
and for a class and at a list of public names only up to the first plain import. -/
theorem replays_by_kind (hnode : s.world.imports.node? s.frame.module = some node)
    (visit : Node → Declare Unit) :
    (∀ sink (f : Function Stmt) full, full = Text.dotted (s.frame.names.drop 1 ++ [f.name]) →
      s.world.sinks.node? s.frame.module = some sink → sink.methodUsers.contains
        (if f.name = initMethod then Text.dotted (s.frame.names.drop 1) else full) = true →
      functionDef visit enter f s = (do
        noteAnalyzed s.frame.module full
        (node.forSinks full).forM (importing enter)
        let _ ← declareFunction visit f.loc (.stmt (.functionDef f)) f.name f.params f.decorators
        functionBody visit f.name f.body : Declare Unit) s) ∧
    importInitial enter s
      = (if Text.endsWith s.frame.file "__init__.py" && !s.own.listsPublicNames then
          node.statements.values.forM (importing enter) s else (.ok (), s)) ∧
    (∀ loc loc' target t module i value, target ≠ "" → t ≠ "bool" → module ≠ "" →
      s.world.sinks.potentMethods.contains t = true → node.methodImports.get? t = some module →
      node.statements.get? (module ++ "." ++ t) = some i →
      hinted visit enter (.name loc target) (.name loc' t) value s = (do
        importing enter i
        declareHinted visit (.name loc target) target value : Declare Unit) s) ∧
    (∀ sink (c : ClassDecl Stmt) full, full = Text.dotted (s.frame.names.drop 1 ++ [c.name]) →
      s.world.sinks.node? s.frame.module = some sink → sink.methodUsers.contains full = true →
      sink.analyzed.contains full = false →
      classDef visit enter c s = (do
        untilPlain enter (node.forSinks full)
        declareClass s.frame.module c
        noteAnalyzed s.frame.module full
        classBody visit c.name c.body : Declare Unit) s) ∧
    (∀ targets value, (targets.any fun t => t.id? = some "__all__") = true →
      assignment visit enter targets value s = (do
        mapOwn fun o => { o with listsPublicNames := true }
        untilPlain enter node.statements.values
        assign { visit } value targets : Declare Unit) s) ∧
    ∀ is : List Import, ((untilPlain enter is s).1 = .ok () ↔
        (∀ i ∈ is, i.isFrom = true) ∧ (is.forM (importing enter) s).1 = .ok ()) ∧
      ((∀ i ∈ is, i.isFrom = true) → untilPlain enter is s = is.forM (importing enter) s) := by
  have hmodule : moduleName s = (.ok s.frame.module, s) := rfl
  have hworld : getWorld s = (.ok s.world, s) := rfl
  have hframe : getFrame s = (.ok s.frame, s) := rfl
  have hinner (name : String) :
      innerName name s = (.ok (Text.dotted (s.frame.names.drop 1 ++ [name])), s) := rfl
  refine ⟨?_, ?_, ?_, ?_, ?_, fun is => ⟨ok_untilPlain_iff is s, fun h => ?_⟩⟩
  · rintro sink f full rfl hsink howner
    rw [functionDef, run_bind, hmodule]
    simp only [run_bind (a := getWorld), hworld, hsink]
    rw [run_bind, hinner]
    simp only [run_bind (a := getFrame), hframe, howner, if_true, bind_assoc, pure_bind]
    rw [run_bind, run_bind]
    exact run_importForSinks (s := (noteAnalyzed _ _ s).2) hnode _ _ _
  · have hrun : importInitial enter s
        = (if Text.endsWith s.frame.file "__init__.py" && !s.own.listsPublicNames then
            importAll (importing enter) else pure ()) s := rfl
    rw [hrun, run_ite, importAll, run_bind, run_importNode hnode]
    rfl
  · intro loc loc' target t module i value htarget ht hmodule hpotent hget hi
    have hgiven : given? (some target) = some target := by
      unfold given?
      split <;> simp_all
    simp only [hinted, Expr.id?, hgiven, Option.some.injEq, ht, if_false]
    rw [run_bind]
    change (ite (s.world.sinks.potentMethods.contains t = true) _ _ : Declare Unit) s = _
    rw [if_pos hpotent, run_bind, run_importNode hnode]
    simp only [hget, hi]
    rfl
  · rintro sink c full rfl hsink howner hnew
    rw [classDef, run_bind, hmodule]
    simp only [run_bind (a := innerName _), hinner]
    simp only [run_bind (a := getWorld), hworld, hsink, howner, hnew, if_true, Bool.false_eq_true,
      if_false]
    rw [run_importForSinks hnode, forM_importingFrom]
  · intro targets value hpublic
    rw [assignment, if_pos hpublic, ← forM_importingFrom, run_bind, run_bind]
    exact run_importAll (s := { s with own := { s.own with listsPublicNames := true } }) hnode _ _
  · rw [untilPlain_of_isFrom h]

def plainly : Walk Declarations where
  world := { imports := { graph := Table.ofList [("m",
    { statements := Table.ofList [("a", .plain default [⟨default, "a", none⟩])] })] } }
  frame := { file := "m.py", module := "m" }
  own := { listsPublicNames := true }

theorem plain_import_not_replayed :
    (assignment (fun _ => pure ()) (fun _ => pure ()) [.name default "__all__"] (.name default "x")
      plainly).1 ≠ .ok () := by
  obtain ⟨-, -, -, -, hpublic, huntil⟩ :=
    @replays_by_kind (fun _ => pure ()) plainly _ rfl fun _ => pure ()
  rw [hpublic _ _ rfl]
  intro hok
  obtain ⟨_, _, hown, hrest⟩ := of_bind (Prod.ext hok rfl)
  obtain ⟨_, _, hplain, -⟩ := of_bind hrest
  cases hown
  exact absurd (((huntil _).1.mp (congrArg Prod.fst hplain)).1 _ (.head _)) (by decide)

/-- A plain import ends the analysis at the list of public names. -/
theorem public_names_end_at_plain_import :
    (assignment (fun _ => pure ()) (fun _ => pure ()) [.name default "__all__"] (.name default "x")
      plainly).1 = .error .absent := rfl

end Declarations

end SinkTrace
