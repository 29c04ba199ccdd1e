import SinkTrace.Proofs.Act
import SinkTrace.Walk.Declarations

/-!
# Default values and their parameters

The default values of a function belong to the last of its positional parameters, and to
keyword-only parameters. They are found there if the positional parameters are of one kind. If there
are positional-only parameters and others, the last default is looked for outside their lists.
-/

namespace SinkTrace.Declarations

open Act Walk List

variable {visit : Node → Declare Unit}

/-- What a default means when it has been visited, for its parameter. -/
def ownDefault (visit : Node → Declare Unit) (e : Param Expr × Expr) :
    Declare (String × List Meaning) := do
  visit (.expr e.2)
  return (e.1.name, ← meaning e.2)

/-- The defaults with their parameters: the last positional ones in turn, and keyword-only ones. -/
def defaultOwners (p : Params Expr) : List (Param Expr × Expr) :=
  let start := p.posOnly.length + p.plain.length - p.defaults.length
  p.defaults.zipIdx.filterMap (fun e => (p.posOnly ++ p.plain)[start + e.2]?.map (·, e.1)) ++
    (p.kwOnly.zip p.kwDefaults).filterMap fun e => e.2.map (e.1, ·)

lemma mapM_filterMap {α β γ : Type} {f : α → Declare γ} {g : α → Option β} {h : β → Declare γ}
    {as : List α} (hf : ∀ a ∈ as, ∃ b, g a = some b ∧ f a = h b) :
    as.mapM f = (as.filterMap g).mapM h := by
  induction as with
  | nil => rfl
  | cons a as ih =>
    obtain ⟨⟨b, hg, ha⟩, has⟩ := forall_mem_cons.mp hf
    rw [filterMap_cons_some hg, mapM_cons, mapM_cons, ha, ih has]

lemma mapM_named (es : List (Param Expr × Option Expr)) : filterMap id <$> es.mapM (fun e => do
      match e.2 with
      | none => return none
      | some d =>
        visit (.expr d)
        return some (e.1.name, ← meaning d)) =
      (es.filterMap fun e => e.2.map (e.1, ·)).mapM (ownDefault visit) := by
  induction es with
  | nil => rfl
  | cons e es ih =>
    obtain ⟨q, _ | d⟩ := e
    · rw [filterMap_cons_none rfl, ← ih, mapM_cons]
      simp only [pure_bind, map_bind, map_pure, filterMap_cons, id]
      exact bind_pure_comp ..
    · simp [← ih, ownDefault]

lemma atPlace?_of_kind {as bs : List (Param Expr)} {n i : Nat} (hn : n ≤ as.length + bs.length)
    (hi : i < n) (hkind : as = [] ∨ bs = []) :
    atPlace? (if i < as.length then as else bs) ((as.length + bs.length - n : Int) + i) =
      (as ++ bs)[as.length + bs.length - n + i]? := by
  have hboth : (if i < as.length then as else bs) = as ++ bs := by
    rcases hkind with rfl | rfl
    · rfl
    · have hfirst : i < as.length := Nat.lt_of_lt_of_le hi hn
      rw [if_pos hfirst, append_nil]
  rw [hboth, atPlace?, if_pos (by omega)]
  congr 1
  omega

/-- The defaults are those of their own parameters, unless parameters of both kinds are
positional. -/
theorem defaults_owned (visit : Node → Declare Unit) (p : Params Expr)
    (h : p.defaults.length ≤ p.posOnly.length + p.plain.length)
    (hkind : p.defaults = [] ∨ p.posOnly = [] ∨ p.plain = []) :
    defaults visit p.plain p = Table.ofList <$> (defaultOwners p).mapM (ownDefault visit) := by
  rw [defaultOwners, mapM_append, ← mapM_named, ← mapM_filterMap (f := fun e : Expr × Nat => do
    visit (.expr e.1)
    let ms ← meaning e.1
    return ((← need .outOfRange (atPlace? (if e.2 < p.posOnly.length then p.posOnly else p.plain)
      ((p.posOnly.length + p.plain.length - p.defaults.length : Int) + e.2))).name, ms))]
  · simp only [bind_pure_comp, Functor.map_map, map_bind]
    rfl
  · rintro ⟨d, i⟩ hd
    have hi : i < p.defaults.length := snd_lt_of_mem_zipIdx hd
    have hkind := hkind.resolve_left (ne_nil_of_length_pos (Nat.zero_lt_of_lt hi))
    have hlast : p.posOnly.length + p.plain.length - p.defaults.length + i <
        (p.posOnly ++ p.plain).length := by
      rw [length_append]
      omega
    dsimp only
    rw [atPlace?_of_kind h hi hkind, getElem?_eq_getElem hlast]
    exact ⟨_, rfl, by simp [need, ownDefault]⟩

def twoParams (posOnly : Bool) : Params Expr :=
  let a : Param Expr := { loc := {}, name := "a", hint := none }
  let b : Param Expr := { loc := {}, name := "b", hint := none }
  { posOnly := if posOnly then [a] else [], plain := if posOnly then [b] else [a, b]
    vararg := none, kwOnly := [], kwDefaults := [], kwarg := none
    defaults := [.constant {} (.int 1) false] }

theorem defaults_owned_twoParams : 1 ≤ 0 + 2 ∧ (twoParams false).posOnly = [] ∧ ∀ s, ∃ given,
    defaults (fun _ => pure ()) (twoParams false).plain (twoParams false) s = (.ok given, s) ∧
      given.keys = ["b"] := by
  refine ⟨by decide, rfl, fun s => ?_⟩
  rw [defaults_owned _ (twoParams false) (by decide) (.inr (.inl rfl))]
  exact ⟨_, rfl, rfl⟩

/-- The default of a parameter after a positional-only one is not found. -/
theorem default_out_of_place :
    (defaults (Declarations.visit (enter (analyze 1)) depthBound) (twoParams true).plain
      (twoParams true) default).1 = .error .outOfRange := rfl

end SinkTrace.Declarations
