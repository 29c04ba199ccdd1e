import SinkTrace.Proofs.Act
import SinkTrace.Proofs.Data.Table
import SinkTrace.Scope

/-!
# Scopes stay, and so do their names

No scope is taken away, and a name that is bound in a scope stays bound there; what it is bound to
may change. Scopes and names are added without a change to what the scopes number.
-/

namespace SinkTrace.Scopes

variable {ss ss' ss'' : Scopes} {name ns : String}

/-- Every scope of `ss` is there in `ss'`, with all names that are bound in it. -/
def Keeps (ss ss' : Scopes) : Prop :=
  ∀ ns s, ss.get? ns = some s →
    ∃ t, ss'.get? ns = some t ∧ ∀ name, s.defs.contains name = true → t.defs.contains name = true

lemma Keeps.refl (ss : Scopes) : Keeps ss ss := fun _ s h => ⟨s, h, fun _ hname => hname⟩

lemma Keeps.trans (h : Keeps ss ss') (h' : Keeps ss' ss'') : Keeps ss ss'' := by
  intro ns s hs
  obtain ⟨t, ht, hst⟩ := h ns s hs
  obtain ⟨u, hu, htu⟩ := h' ns t ht
  exact ⟨u, hu, fun name hname => htu name (hst name hname)⟩

lemma keeps_modify (ss : Scopes) {f : Scope → Scope} (h : ∀ s, ss.get? ns = some s →
      ∀ name, s.defs.contains name → (f s).defs.contains name) :
    Keeps ss (ss.modify ns f) := by
  intro m s hs
  rw [Table.get?_modify]
  split_ifs with hm
  · subst hm
    exact ⟨f s, congrArg (Option.map f) hs, h s hs⟩
  · exact ⟨s, hs, fun _ hname => hname⟩

lemma keeps_resetCounts (ss : Scopes) : Keeps ss ss.resetCounts := by
  intro ns s hs
  refine ⟨s.resetCounts, ?_, fun _ hname => hname⟩
  rw [resetCounts, Table.get?_mapValues, hs]
  rfl

def lambdas (ss : Scopes) (ns : String) : Int := ((ss.get? ns).map (·.lambdas)).getD 0

/-- Scopes and names may be new in `ss'`; every scope has numbered as much as before. -/
structure Adds (ss ss' : Scopes) : Prop where
  keeps : Keeps ss ss'
  counts : ∀ ns, ss'.lambdas ns = ss.lambdas ns

lemma Adds.refl (ss : Scopes) : Adds ss ss := ⟨.refl ss, fun _ => rfl⟩

lemma Adds.trans (h : Adds ss ss') (h' : Adds ss' ss'') : Adds ss ss'' :=
  ⟨h.keeps.trans h'.keeps, fun ns => (h'.counts ns).trans (h.counts ns)⟩

lemma adds_create (ss : Scopes) {parent : Option String} : Adds ss (ss.create ns parent) := by
  have hget (m : String) : (ss.create ns parent).get? m =
      if m = ns then some ((ss.get? ns).getD { parent }) else ss.get? m :=
    Table.get?_setNew ss ns m
  constructor
  · intro m s hs
    refine ⟨s, ?_, fun _ hname => hname⟩
    rw [hget]
    split_ifs with hm
    · rw [← hm, hs]
      rfl
    · exact hs
  · intro m
    unfold lambdas
    rw [hget]
    split_ifs with hm
    · subst hm
      cases ss.get? m <;> rfl
    · rfl

lemma adds_bind (ss : Scopes) {r : DefRef} : Adds ss (ss.bind ns name r) := by
  constructor
  · exact keeps_modify ss fun _ _ _ hname => Table.contains_set.mpr (.inr hname)
  · intro m
    unfold lambdas bind
    rw [Table.get?_modify]
    split_ifs
    · rw [Option.map_map]
      rfl
    · rfl

mutual

lemma adds_addTable (ns : String) (parent : Option String) :
    ∀ (t : SymbolTable) (ss : Scopes) (found : Blocks), Adds ss (addTable ns parent t (ss, found)).1
  | .mk name kind children, ss, found => by
    unfold addTable
    exact (adds_create ss).trans (adds_addTables _ children _ _)

lemma adds_addTables (ns : String) : ∀ (ts : List SymbolTable) (ss : Scopes) (found : Blocks),
      Adds ss (addTable.addTables ns ts (ss, found)).1
  | [], ss, _ => by
    rw [addTable.addTables]
    exact .refl ss
  | t :: ts, ss, found => by
    rw [addTable.addTables]
    exact (adds_addTable ns (some ns) t ss found).trans (adds_addTables ns ts _ _)

end

lemma leads_addModule {text : String} : Act.Leads Adds (addModule name text) := by
  unfold addModule
  split
  · exact Act.Leads.throw
  · exact Act.Leads.get_bind fun ss => .single (adds_addTable name none _ ss {})

end SinkTrace.Scopes
