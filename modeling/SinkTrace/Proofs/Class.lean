import Mathlib.Data.List.Dedup
import SinkTrace.Proofs.Act
import SinkTrace.Proofs.Data.Table
import SinkTrace.Walk.Flow.Visit

/-!
# The order of ancestors

Behind a class stand its bases, each with its own ancestors, and what comes twice stays in its last
place. So no class comes before one that inherits from it, however often ancestors are shared.
-/

namespace SinkTrace

open Relation Act List

namespace ClassInfo

/-! ### Last occurrences -/

lemma lasts_eq_dedup (l : List String) : lasts l = l.dedup := by
  induction l with
  | nil => rfl
  | cons a l ih => by_cases ha : a ∈ l <;> simp [lasts, ha, ih]

lemma reverse_firsts (l : List String) : (firsts l.reverse).reverse = lasts l := by
  rw [lasts_eq_dedup, firsts, foldl_reverse]
  induction l with
  | nil => rfl
  | cons a l ih =>
    rw [foldr_cons]
    generalize l.foldr _ [] = out at ih ⊢
    have hmem : a ∈ out ↔ a ∈ l := by rw [← mem_reverse, ih, mem_dedup]
    by_cases ha : a ∈ l <;> simp [hmem, ha, ih]

lemma computeMro_eq (c : ClassInfo) : c.computeMro = { c with mro := lasts c.mro } := by
  rw [computeMro, reverse_firsts]

lemma lasts_lasts_append (l l' : List String) : lasts (lasts l ++ l') = lasts (l ++ l') := by
  simp only [lasts_eq_dedup]
  induction l with
  | nil => rfl
  | cons a l ih => by_cases ha : a ∈ l <;> by_cases ha' : a ∈ l' <;> simp [ha, ha', ih]

lemma addParents_addParents (c : ClassInfo) (ps qs : List String) :
    (c.addParents ps).addParents qs = c.addParents (ps ++ qs) := by
  simp only [addParents, lasts_lasts_append, append_assoc]

lemma computeMro_addParents (c : ClassInfo) (ps : List String) :
    (c.addParents ps).computeMro = c.addParents ps := by
  have h := addParents_addParents c ps []
  rw [append_nil] at h
  rw [computeMro_eq]
  simpa [addParents] using h

/-! ### What stands behind -/

/-- Wherever `a` stands in the list, `b` stands somewhere behind it. -/
def Behind (a b : String) : List String → Prop
  | [] => True
  | x :: l => (x = a → b ∈ l) ∧ Behind a b l

variable {a b : String} {l l' : List String}

lemma Behind.append (h : Behind a b l) (h' : Behind a b l') : Behind a b (l ++ l') := by
  induction l with
  | nil => exact h'
  | cons x l ih => exact ⟨fun hx => mem_append_left l' (h.1 hx), ih h.2⟩

lemma Behind.flatMap {f : String → List String} (h : ∀ x ∈ l, Behind a b (f x)) :
    Behind a b (l.flatMap f) := by
  induction l with
  | nil => trivial
  | cons x l ih =>
    obtain ⟨hx, hl⟩ := forall_mem_cons.mp h
    exact hx.append (ih hl)

lemma Behind.dedup (h : Behind a b l) : Behind a b l.dedup := by
  induction l with
  | nil => trivial
  | cons x l ih =>
    by_cases hx : x ∈ l
    · rw [dedup_cons_of_mem hx]
      exact ih h.2
    · rw [dedup_cons_of_notMem hx]
      exact ⟨fun heq => mem_dedup.mpr (h.1 heq), ih h.2⟩

/-! ### Linear orders of ancestors -/

/-- The class `c` with all its ancestors, each once, and each before its own bases. -/
structure Linear (bases : String → List String) (c : String) (mro : List String) : Prop where
  head : mro.head? = some c
  nodup : mro.Nodup
  mem_iff : ∀ a, a ∈ mro ↔ ReflTransGen (fun x b => b ∈ bases x) c a
  behind : ∀ a, ∀ b ∈ bases a, Behind a b mro

lemma linear_lasts {bases mros : String → List String} {c : String}
    (hbases : ∀ b ∈ bases c, Linear bases b (mros b))
    (hc : c ∉ (bases c).flatMap fun b => b :: mros b) :
    Linear bases c (lasts (c :: (bases c).flatMap fun b => b :: mros b)) := by
  rw [lasts_eq_dedup]
  refine ⟨?_, nodup_dedup _, fun a => ?_, fun a y hy => Behind.dedup ⟨?_, ?_⟩⟩
  · rw [dedup_cons_of_notMem hc, head?_cons]
  · rw [mem_dedup, mem_cons, mem_flatMap, ReflTransGen.cases_head_iff, eq_comm]
    refine or_congr_right (exists_congr fun b => and_congr_right fun hb => ?_)
    have hself : b ∈ mros b := ((hbases b hb).mem_iff b).mpr .refl
    rw [mem_cons, ← (hbases b hb).mem_iff a]
    exact or_iff_right_of_imp fun heq => heq ▸ hself
  · rintro rfl
    exact mem_flatMap.mpr ⟨y, hy, mem_cons_self⟩
  · refine Behind.flatMap fun b hb => ⟨?_, (hbases b hb).behind a y hy⟩
    rintro rfl
    exact ((hbases b hb).mem_iff y).mpr (.single hy)

end ClassInfo

namespace Classes

open ClassInfo

/-! ### The steps of a class -/

/-- A base comes behind what a class has, and then the ancestors of the base. -/
def addBase (cls : String) (cs : Classes) (base : String) : Classes :=
  let cs := cs.modify cls (·.addParents [base])
  match cs.get? base with
  | none => cs
  | some parent => cs.modify cls (·.addParents parent.mro)

lemma world_baseClass (cls base : String) (inherited : Flow.Inherited) (s : Walk Flow) :
    (Flow.baseClass cls inherited base s).2.world =
      { s.world with classes := addBase cls s.world.classes base } := by
  simp only [Flow.baseClass, Walk.mapWorld, Walk.getWorld, Walk.mapOwn, World.mapClasses, addBase,
    run_bind, run_modify, run_get, run_pure]
  cases (s.world.classes.modify cls (·.addParents [base])).get? base with
  | none => rfl
  | some parent =>
    simp only [run_bind, run_modify, run_get, run_pure]
    cases s.world.defs.get? base <;> rfl

/-- A class: it is made if it is new, stands alone, and gets its bases in their order. -/
def declare (module : String) (bases : String → List String) (cs : Classes) (cls : String) :
    Classes :=
  ((bases cls).foldl (addBase cls)
    ((cs.create cls module).modify cls clearMro)).modify cls computeMro

variable {module cls base : String} {bases mros : String → List String} {t : Classes}
  {info parent : ClassInfo}

lemma get?_addBase (hne : base ≠ cls) (hcls : t.get? cls = some info)
    (hbase : t.get? base = some parent) (d : String) :
    (addBase cls t base).get? d =
      if d = cls then some (info.addParents (base :: parent.mro)) else t.get? d := by
  simp only [addBase, Table.get?_modify, if_neg hne, hbase]
  split_ifs with hd
  · rw [hd, hcls, Option.map_some, Option.map_some, addParents_addParents]
    rfl
  · rfl

variable (mros) in
lemma get?_addBases {bs : List String} (hcls : t.get? cls = some info)
    (hinfo : info.addParents [] = info)
    (hbs : ∀ b ∈ bs, b ≠ cls ∧ ∃ parent, t.get? b = some parent ∧ parent.mro = mros b)
    (d : String) :
    (bs.foldl (addBase cls) t).get? d =
      if d = cls then some (info.addParents (bs.flatMap fun b => b :: mros b)) else t.get? d := by
  induction bs generalizing t info with
  | nil =>
    split_ifs with hd
    · rw [hd, foldl_nil, flatMap_nil, hcls, hinfo]
    · rfl
  | cons b bs ih =>
    obtain ⟨⟨hne, parent, hparent, hmro⟩, hbs⟩ := forall_mem_cons.mp hbs
    have hget := get?_addBase hne hcls hparent
    rw [hmro] at hget
    rw [foldl_cons, ih ((hget cls).trans (if_pos rfl)), flatMap_cons, hget, addParents_addParents]
    · split_ifs <;> rfl
    · rw [addParents_addParents, append_nil]
    · intro x hx
      rw [hget, if_neg (hbs x hx).1]
      exact hbs x hx

variable (mros) in
lemma get?_declare (hnew : t.get? cls = none)
    (hbs : ∀ b ∈ bases cls, b ≠ cls ∧ ∃ parent, t.get? b = some parent ∧ parent.mro = mros b)
    (d : String) :
    (declare module bases t cls).get? d = if d = cls then
      some ((ClassInfo.new cls module).addParents ((bases cls).flatMap fun b => b :: mros b))
      else t.get? d := by
  have hstart (d : String) : ((t.create cls module).modify cls clearMro).get? d =
      if d = cls then some (ClassInfo.new cls module) else t.get? d := by
    rw [Table.get?_modify, create, Table.get?_setNew, hnew]
    split_ifs <;> rfl
  have hbases := get?_addBases mros ((hstart cls).trans (if_pos rfl)) rfl fun b hb => by
      rw [hstart, if_neg (hbs b hb).1]
      exact hbs b hb
  rw [declare, Table.get?_modify, hbases, hstart]
  split_ifs
  · rw [Option.map_some, computeMro_addParents]
  · rfl

/-! ### Hierarchies -/

/-- Classes of which each, with its bases, comes before those that were declared earlier. -/
inductive BasesFirst (bases : String → List String) : List String → Prop
  | nil : BasesFirst bases []
  | cons {c : String} {earlier : List String} (hnew : c ∉ earlier) (hbases : bases c ⊆ earlier)
      (h : BasesFirst bases earlier) : BasesFirst bases (c :: earlier)

/-- The classes of a hierarchy; the list has the one that is declared last as its first. -/
def declareAll (modules : String → String) (bases : String → List String) (cs : List String) :
    Classes := cs.foldr (fun c t => declare (modules c) bases t c) {}

lemma BasesFirst.mem {cs : List String} (h : BasesFirst bases cs) {c a : String} (hc : c ∈ cs)
    (hca : ReflTransGen (fun x b => b ∈ bases x) c a) : a ∈ cs := by
  have hclosed : ∀ x ∈ cs, bases x ⊆ cs := by
    clear hc hca
    induction h with
    | nil => exact nofun
    | cons _ hbases _ ih =>
      refine forall_mem_cons.mpr ⟨subset_cons_of_subset _ hbases, fun x hx => ?_⟩
      exact subset_cons_of_subset _ (ih x hx)
  induction hca with
  | refl => exact hc
  | tail _ hb ih => exact hclosed _ ih hb

lemma BasesFirst.linear (modules : String → String) {cs : List String} (h : BasesFirst bases cs)
    (c : String) :
    (c ∈ cs → ∃ info, (declareAll modules bases cs).get? c = some info ∧ Linear bases c info.mro) ∧
      (c ∉ cs → (declareAll modules bases cs).get? c = none) := by
  induction h generalizing c with
  | nil => exact ⟨nofun, fun _ => rfl⟩
  | @cons d earlier hnew hbases h ih =>
    let t := declareAll modules bases earlier
    let mros (b : String) : List String := ((t.get? b).map (·.mro)).getD []
    have hbs : ∀ b ∈ bases d, b ≠ d ∧ (∃ parent, t.get? b = some parent ∧ parent.mro = mros b) ∧
        Linear bases b (mros b) := by
      intro b hb
      obtain ⟨info, hinfo, hlinear⟩ := (ih b).1 (hbases hb)
      have hmros : mros b = info.mro := by
        change ((t.get? b).map (·.mro)).getD [] = _
        rw [hinfo]
        rfl
      exact ⟨fun heq => hnew (heq ▸ hbases hb), ⟨info, hinfo, hmros.symm⟩, hmros ▸ hlinear⟩
    have hget : (declareAll modules bases (d :: earlier)).get? c = _ :=
      get?_declare mros ((ih d).2 hnew) (fun b hb => ⟨(hbs b hb).1, (hbs b hb).2.1⟩) c
    rw [hget]
    split_ifs with hcd
    · subst hcd
      refine ⟨fun _ => ⟨_, rfl, linear_lasts (fun b hb => (hbs b hb).2.2) fun hmem => ?_⟩,
        fun hnot => absurd mem_cons_self hnot⟩
      -- the ancestors of the bases were declared earlier
      obtain ⟨b, hb, hcb⟩ := mem_flatMap.mp hmem
      rcases mem_cons.mp hcb with rfl | hcb
      · exact hnew (hbases hb)
      · exact hnew (h.mem (hbases hb) (((hbs b hb).2.2.mem_iff c).mp hcb))
    · simpa [hcd] using ih c

/-- When bases are declared first, every class has an order of itself and its ancestors in which no
class comes before one that inherits from it. Removing repetitions again changes nothing. -/
theorem linear_declareAll {bases : String → List String} {cs : List String}
    (h : BasesFirst bases cs)
    (modules : String → String) :
    (∀ c ∈ cs, ∃ info, (declareAll modules bases cs).get? c = some info ∧ Linear bases c info.mro) ∧
      (∀ (c : ClassInfo) (ps : List String), (c.addParents ps).computeMro = c.addParents ps) ∧
      ∀ c : ClassInfo, c.computeMro = { c with mro := lasts c.mro } :=
  ⟨fun c => (h.linear modules c).1, computeMro_addParents, computeMro_eq⟩

def diamond (c : String) : List String :=
  if c = "D" then ["B", "C"] else if c = "B" ∨ c = "C" then ["A"] else []

theorem linear_diamond : BasesFirst diamond ["D", "C", "B", "A"] ∧
    (declareAll (fun _ => "m") diamond ["D", "C", "B", "A"]).get? "D" =
      some ⟨"D", "m", ["D", "B", "C", "A"]⟩ ∧
      Linear diamond "D" ["D", "B", "C", "A"] := by
  have h : BasesFirst diamond ["D", "C", "B", "A"] :=
    .cons (by decide) (by decide) (.cons (by decide) (by decide) (.cons (by decide) (by decide)
      (.cons (by decide) (by decide) .nil)))
  have hget : (declareAll (fun _ => "m") diamond ["D", "C", "B", "A"]).get? "D"
      = some ⟨"D", "m", ["D", "B", "C", "A"]⟩ := by rfl
  obtain ⟨info, hinfo, hlinear⟩ := (linear_declareAll h fun _ => "m").1 "D" List.mem_cons_self
  cases hget.symm.trans hinfo
  exact ⟨h, hget, hlinear⟩

end Classes

end SinkTrace
