import SinkTrace.Proofs.Analysis.Steps
import SinkTrace.Proofs.Class
import SinkTrace.Proofs.Walk.Flow.Visit

/-!
# What a class takes from its bases

To put a class behind its bases changes no definition. But a class without a method that sets up its
objects takes a value away from each argument of its bases, and the next class with the same bases
finds what is left.
-/

namespace SinkTrace

namespace Definitions

variable {cls : String} {ds ds₁ ds₂ : Definitions}

/-- Definitions other than that of `cls` are as before, but their arguments may have fewer
values. -/
def Sheds (cls : String) (ds₁ ds₂ : Definitions) : Prop :=
  ∀ ns ≠ cls, ∀ d, ds₁.get? ns = some d → ∃ args : Table (Option String) PointSet,
    ds₂.get? ns = some { d with name := { d.name with args } } ∧
      ∀ k, (args.getD k {}).names.Sublist (d.name.args.getD k {}).names

lemma Sheds.refl (ds : Definitions) : Sheds cls ds ds :=
  fun _ _ d hd => ⟨d.name.args, hd, fun _ => .refl _⟩

lemma Sheds.trans (h₁ : Sheds cls ds ds₁) (h₂ : Sheds cls ds₁ ds₂) : Sheds cls ds ds₂ := by
  intro ns hns d hd
  obtain ⟨args₁, hargs₁, hless₁⟩ := h₁ ns hns d hd
  obtain ⟨args₂, hargs₂, hless₂⟩ := h₂ ns hns _ hargs₁
  exact ⟨args₂, hargs₂, fun k => (hless₂ k).trans (hless₁ k)⟩

lemma sheds_onName {α : Type} {r : DefRef} {a : Act NamePointer α}
    (h : r.ns ≠ cls → ∀ p, ∃ args, (a p).2 = { p with args } ∧
      ∀ k, (args.getD k {}).names.Sublist (p.args.getD k {}).names) : Sheds cls ds
      (onName r a ds).2 := by
  rcases onName_state r a ds with hsame | ⟨e, he, hstate⟩
  · rw [hsame]
    exact .refl ds
  · rw [hstate]
    intro ns hns d hd
    rcases current_or_past ds r with ⟨d', hd', hr⟩ | hpast
    · rw [adjust_of_current hd' hr, get?_adjustAt]
      split_ifs with hm
      · subst hm
        obtain rfl := Option.some.inj (hd'.symm.trans hd)
        obtain rfl := Option.some.inj ((find?_of_current hd' hr).symm.trans he)
        obtain ⟨args, hargs, hless⟩ := h hns d'.name
        exact ⟨args, by rw [hd, Option.map_some, hargs], hless⟩
      · exact Sheds.refl ds ns hns d hd
    · rw [adjust_of_past hpast]
      exact Sheds.refl ds ns hns d hd

end Definitions

namespace Flow

open Act Walk Definitions

variable {cls child full ns : String} {bases : List Expr} {s : Walk Flow}
  {visit : Node → Follow Unit}

abbrev Less (ns : String) (s t : Walk Flow) : Prop := Sheds ns s.world.defs t.world.defs

lemma less_onName {r : DefRef} {a : Act NamePointer Unit}
    (h : ∀ ds, Sheds ns ds (onName r a ds).2) : Leads (Less ns) (onDefs (onName r a)) :=
  fun s => .single (h s.world.defs)

lemma less_takeInherited {r : DefRef} (pos : Nat) (inherited : List (Option String × DefRef)) :
    Leads (Less r.ns) (takeInherited r pos inherited) := by
  induction inherited generalizing pos with
  | nil => exact .pure
  | cons e rest ih =>
    refine reads_namePointer.next fun p => ?_
    dsimp only
    split
    · exact .pure
    · refine (less_onName fun ds => sheds_onName fun _ p => ⟨_, rfl, fun k => ?_⟩).bind fun _ =>
        (less_onName fun _ => sheds_onName fun h => absurd rfl h).bind fun _ => ih _
      rw [Table.getD_modify rfl]
      split_ifs
      · exact List.filter_sublist
      · exact .refl _

lemma less_meaning {e : Expr} : Leads (Less ns) (meaning e) := by
  refine leads_meaning.mono fun s t hst => ?_
  cases hst with
  | coin new =>
    change Sheds ns s.world.defs (create new _ (some s.frame.module) s.world.defs).2
    rcases create_cases s.world.defs new DefKind.name.tag (some s.frame.module) with ⟨e, h⟩ |
      ⟨hnone, h⟩
    · rw [h]
      exact .refl _
    · rw [h]
      intro m hm d hd
      refine ⟨d.name.args, ?_, fun _ => .refl _⟩
      rw [get?_put_of_none hnone, if_neg, hd]
      rintro rfl
      rw [hnone] at hd
      cases hd

lemma less_addBases {inherited : Inherited} {base : Expr} :
    Leads (Less ns) (addBases cls child inherited base) := by
  refine less_meaning.bind fun _ => .foldlM (fun inherited m _ => ?_) _
  split
  · refine reads_closures.next fun c => Leads.need.bind fun _ => ?_
    refine Leads.bind (.forM fun e _ s => .single (.refl s.world.defs)) fun _ => ?_
    refine reads_namePointer.next fun p => .foldlM (fun _ _ _ s => .single ?_) _
    rw [Less, Classes.world_baseClass]
    exact .refl _
  · exact .pure

/-- The place and the names of definitions are kept, and definitions other than `ns` lose nothing
but values of arguments. -/
def Takes (ns : String) (s t : Walk Flow) : Prop :=
  t.frame.names = s.frame.names ∧ (s.world.defs.Keyed → t.world.defs.Keyed) ∧ Less ns s t

lemma Takes.trans {s t u : Walk Flow} (h : Takes ns s t) (h' : Takes ns t u) : Takes ns s u :=
  ⟨h'.1.trans h.1, fun hs => h'.2.1 (h.2.1 hs), h.2.2.trans h'.2.2⟩

lemma takes_addBases {inherited : Inherited} {base : Expr} :
    Leads (Takes ns) (addBases cls child inherited base) := by
  have hdev : Developing (addBases cls child inherited base) := developing_addBases
  have hkept : Leads (fun s t : Walk Flow => t.frame.names = s.frame.names ∧
      (s.world.defs.Keyed → t.world.defs.Keyed)) (addBases cls child inherited base) := by
    refine hdev.mono fun s t hst => ?_
    obtain ⟨_, _, _, hframe⟩ := hst.frame
    exact ⟨by rw [hframe], hst.world.keyed⟩
  intro s
  obtain ⟨hnames, hkeyed⟩ := hkept.run (fun _ => ⟨rfl, id⟩)
    (fun _ _ _ h h' => ⟨h'.1.trans h.1, fun hs => h'.2 (h.2 hs)⟩) s
  exact .single ⟨hnames, hkeyed, less_addBases.run (fun _ => .refl _) (fun _ _ _ => .trans) s⟩

/-- In a module with the classes `A` and `B`, of which only `A` is known. -/
def besideClass : Walk Flow where
  world := { defs := ({} : Definitions).put "m.A" .cls (some "m") }
  frame := { file := "m.py", module := "m", names := ["m"] }
  own := {}

/-- Two classes have the same base, which has an argument by way of its other name. -/
def twoSubclasses : FileTree := FileTree.ofTexts [("m.py",
  "class A:\n def r(self, c): exec(c)\nX = A\n" ++
  "X(A)\nclass B(A):\n def r(self, c): exec(c)\nclass C(A):\n def r(self, c): exec(c)\n")]

end Flow

end SinkTrace
