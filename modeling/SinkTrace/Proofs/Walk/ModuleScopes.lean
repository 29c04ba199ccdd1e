import SinkTrace.Proofs.Definition.Edits
import SinkTrace.Proofs.Scope
import SinkTrace.Proofs.Text.Split
import SinkTrace.Proofs.Walk.Meaning
import SinkTrace.Walk.Declarations

/-!
# The scopes of a module

A module and its blocks get scopes by their dotted names, but a scope that is there stays as it is,
also if it belongs to a block of another module.
-/

namespace SinkTrace

open Table Text Definitions List

namespace Text

variable {b : String}

lemma exists_components_append (a : String) (hb : '.' ∉ b.toList) :
    ∃ xs, xs ≠ [] ∧ components (a ++ "." ++ b) = xs ++ [b] ∧ dotted xs = a := by
  induction hn : a.toList.length using Nat.strongRecOn generalizing a with
  | ind n ih =>
    by_cases ha : '.' ∈ a.toList
    · obtain ⟨u, v, hsplit, hu⟩ := eq_append_cons_of_mem ha
      obtain rfl : a = String.ofList u ++ "." ++ String.ofList v :=
        String.toList_injective (by simp [hsplit])
      obtain ⟨xs, hne, hxs, hjoin⟩ := ih _ (by simp [← hn]; omega) (String.ofList v) rfl
      refine ⟨String.ofList u :: xs, cons_ne_nil _ _, ?_, ?_⟩
      · have hassoc (u v : String) : u ++ "." ++ v ++ "." ++ b = u ++ "." ++ (v ++ "." ++ b) := by
          simp [String.append_assoc]
        rw [components, hassoc, splitOn_append (c := '.') rfl (by simpa using hu), cons_append]
        exact congrArg _ hxs
      · obtain ⟨x, ys, rfl⟩ := exists_cons_of_ne_nil hne
        rw [dotted, String.intercalate_cons_cons]
        exact congrArg _ hjoin
    · exact ⟨[a], cons_ne_nil _ _, splitOn_pair rfl ha hb, String.intercalate_singleton⟩

lemma dotted_dropLast_components (a : String) (hb : '.' ∉ b.toList) :
    dotted (components (dotted [a, b])).dropLast = a := by
  obtain ⟨xs, -, hxs, hjoin⟩ := exists_components_append a hb
  have hpair : dotted [a, b] = a ++ "." ++ b := by simp [dotted]
  rw [hpair, hxs, dropLast_concat, hjoin]

lemma lastName_dotted {a : String} (hb : '.' ∉ b.toList) : lastName (dotted [a, b]) = b := by
  have hcut : cutLast? (a ++ "." ++ b) "." = some (a, b) := cutLast?_append rfl a hb
  simp [lastName, dotted, hcut]

end Text

namespace Scopes

variable {table : SymbolTable}

/-- A block of a symbol table: the namespaces around it, the innermost first, and its name. -/
structure Block where
  kind : BlockKind
  outer : List String
  name : String
deriving DecidableEq

namespace Block

def around (b : Block) : String := b.outer.headD ""

def ns (b : Block) : String := Text.dotted [b.around, b.name]

lemma length_around (b : Block) : b.around.length < b.ns.length := by
  have hdot : ".".length = 1 := rfl
  simp [ns, dotted, hdot]
  omega

def Plain (b : Block) : Prop := (b.kind = .function ∨ b.kind = .cls) ∧ '.' ∉ b.name.toList

end Block

mutual

def blocks (outer : List String) : SymbolTable → List Block
  | .mk name kind children =>
    let b : Block := { kind, outer, name }
    b :: blocksIn (b.ns :: outer) children

def blocksIn (outer : List String) : List SymbolTable → List Block
  | [] => []
  | t :: ts => blocks outer t ++ blocksIn outer ts

end

def madeIn (bs : List Block) (n : String) : Option Scope :=
  (bs.find? (·.ns = n)).map fun b => { parent := some b.around }

/-- The scopes of the namespaces are one inside the other, and the last one is in none. -/
def Chained (ss : Scopes) : List String → Prop
  | [] => True
  | ns :: outer => (ss.get? ns).map (·.parent) = some outer.head? ∧ Chained ss outer

/-- The functions and classes among the blocks have been added to what was found. -/
def Collects (bs : List Block) (found found' : Blocks) : Prop :=
  found'.functions = found.functions ++ (bs.filter (·.kind = .function)).map Block.ns ∧
    found'.classes = found.classes ++ (bs.filter (·.kind = .cls)).map Block.ns

lemma get?_create (ss : Scopes) (ns n : String) (parent : Option String) :
    (ss.create ns parent).get? n
      = (ss.get? n).or (if ns = n then some { parent } else none) := by
  rw [create, get?_setNew]
  split_ifs with h h' h'
  · subst h
    cases ss.get? n <;> rfl
  · exact absurd h.symm h'
  · exact absurd h'.symm h
  · simp

lemma madeIn_cons (b : Block) (bs : List Block) (n : String) : madeIn (b :: bs) n
      = (if b.ns = n then some { parent := some b.around } else none).or (madeIn bs n) := by
  by_cases h : b.ns = n <;> simp [madeIn, h]

lemma madeIn_append (bs cs : List Block) (n : String) :
    madeIn (bs ++ cs) n = (madeIn bs n).or (madeIn cs n) := by
  simp [madeIn, find?_append, Option.map_or]

lemma Collects.append {bs cs : List Block} {f g h : Blocks} (hb : Collects bs f g)
    (hc : Collects cs g h) : Collects (bs ++ cs) f h := by simp [Collects, hb.1, hb.2, hc.1, hc.2]

mutual

lemma addTable_spec (ns : String) (rest : List String) : ∀ (t : SymbolTable) (ss : Scopes)
    (found : Blocks), (∀ b ∈ blocks (ns :: rest) t, b.Plain) →
    (∀ n, (addTable ns (some ns) t (ss, found)).1.get? n
      = (ss.get? n).or (madeIn (blocks (ns :: rest) t) n)) ∧
    Collects (blocks (ns :: rest) t) found (addTable ns (some ns) t (ss, found)).2
  | .mk name kind children, ss, found, h => by
    obtain ⟨hplain, hinner⟩ := forall_mem_cons.mp h
    rcases hplain.1 with rfl | rfl
    all_goals
      obtain ⟨hget, hfound⟩ := addTables_spec (dotted [ns, name]) (ns :: rest) children
        (ss.create (dotted [ns, name]) (some ns)) _ hinner
      refine ⟨fun n => ?_, (?_ : Collects [_] _ _).append hfound⟩
      · refine (hget n).trans ?_
        rw [get?_create, blocks, madeIn_cons, Option.or_assoc]
        rfl
      · simp [Collects]
        rfl

lemma addTables_spec (ns : String) (rest : List String) : ∀ (ts : List SymbolTable) (ss : Scopes)
    (found : Blocks), (∀ b ∈ blocksIn (ns :: rest) ts, b.Plain) →
    (∀ n, (addTable.addTables ns ts (ss, found)).1.get? n
      = (ss.get? n).or (madeIn (blocksIn (ns :: rest) ts) n)) ∧
    Collects (blocksIn (ns :: rest) ts) found (addTable.addTables ns ts (ss, found)).2
  | [], ss, found, _ => by simp [addTable.addTables, blocksIn, madeIn, Collects]
  | t :: ts, ss, found, h => by
    obtain ⟨ht, hts⟩ := forall_mem_append.mp h
    obtain ⟨hget, hfound⟩ := addTable_spec ns rest t ss found ht
    obtain ⟨hget', hfound'⟩ := addTables_spec ns rest ts _ _ hts
    rw [addTable.addTables]
    refine ⟨fun n => ?_, hfound.append hfound'⟩
    rw [hget', hget, blocksIn, madeIn_append, Option.or_assoc]

end

lemma run_addModule {module text : String} {ss : Scopes}
    (htable : Parser.program text >>= SymbolTable.ofProgram = .ok table) :
    addModule module text ss
      = (.ok (addTable module none table (ss, {})).2, (addTable module none table (ss, {})).1) := by
  unfold addModule
  rw [htable]
  rfl

lemma addTable_program {ns : String} (h : table.kind = .program) (ss : Scopes) (found : Blocks) :
    addTable ns none table (ss, found)
      = addTable.addTables ns table.children (ss.create ns none, found) := by
  obtain ⟨name, kind, children⟩ := table
  obtain rfl : kind = .program := h
  rfl

mutual

lemma blocks_induction {P : Block → Prop} (outer : List String) : ∀ t : SymbolTable,
    (∀ b ∈ blocks outer t, b.outer = outer → P b) →
    (∀ b ∈ blocks outer t, ∀ b', b.outer = b'.ns :: b'.outer → P b' → P b) →
    ∀ b ∈ blocks outer t, P b
  | .mk name kind children, hfirst, hinner => by
    obtain ⟨hb, -⟩ := forall_mem_cons.mp hfirst
    refine forall_mem_cons.mpr ⟨hb rfl, blocksIn_induction _ children ?_ ?_⟩
    · exact fun b hmem houter => hinner b (.tail _ hmem) _ houter (hb rfl)
    · exact fun b hmem => hinner b (.tail _ hmem)

lemma blocksIn_induction {P : Block → Prop} (outer : List String) : ∀ ts : List SymbolTable,
    (∀ b ∈ blocksIn outer ts, b.outer = outer → P b) →
    (∀ b ∈ blocksIn outer ts, ∀ b', b.outer = b'.ns :: b'.outer → P b' → P b) →
    ∀ b ∈ blocksIn outer ts, P b
  | [], _, _ => nofun
  | t :: ts, hfirst, hinner => by
    obtain ⟨ht, hts⟩ := forall_mem_append.mp hfirst
    obtain ⟨ht', hts'⟩ := forall_mem_append.mp hinner
    exact forall_mem_append.mpr
      ⟨blocks_induction outer t ht ht', blocksIn_induction outer ts hts hts'⟩

end

lemma madeIn_of_mem {bs : List Block} (hbs : ∀ b ∈ bs, b.Plain) {b : Block} (hb : b ∈ bs) :
    madeIn bs b.ns = some { parent := some b.around } := by
  have hsome : (bs.find? (·.ns = b.ns)).isSome := find?_isSome.mpr ⟨b, hb, by simp⟩
  obtain ⟨c, hc⟩ := Option.isSome_iff_exists.mp hsome
  have hns : c.ns = b.ns := by simpa using find?_some hc
  have haround : c.around = b.around := by
    rw [← dotted_dropLast_components c.around (hbs c (mem_of_find?_eq_some hc)).2,
      ← dotted_dropLast_components b.around (hbs b hb).2]
    exact congrArg (fun n => dotted (components n).dropLast) hns
  rw [madeIn, hc, Option.map_some, haround]

end Scopes

namespace Declarations

open Walk Act Scopes

variable {s t u : Walk Declarations} {ns outer name text : String} {kind : DefKind}
  {table : SymbolTable}

/-- The block has a definition, bound by its name in the scope around it. -/
def Binds (s : Walk Declarations) (b : Block) : Prop :=
  ∃ scope r, s.world.scopes.get? b.around = some scope ∧ scope.defs.get? b.name = some r ∧
    s.world.defs.ref? b.ns = some r

/-- Definitions are new, and names are bound in the scopes that are there. -/
structure Binding (s t : Walk Declarations) : Prop where
  frame : t.frame = s.frame
  parents : ∀ n, (t.world.scopes.get? n).map (·.parent) = (s.world.scopes.get? n).map (·.parent)
  refs : ∀ n r, s.world.defs.ref? n = some r → t.world.defs.ref? n = some r

lemma Binding.refl (s : Walk Declarations) : Binding s s := ⟨rfl, fun _ => rfl, fun _ _ h => h⟩

lemma Binding.trans (h : Binding s t) (h' : Binding t u) : Binding s u where
  frame := h'.frame.trans h.frame
  parents n := (h'.parents n).trans (h.parents n)
  refs n r hr := h'.refs n r (h.refs n r hr)

lemma Binding.contains (h : Binding s t) {n : String} :
    t.world.scopes.contains n = s.world.scopes.contains n := by
  simpa only [contains_eq_isSome, Option.isSome_map] using congrArg Option.isSome (h.parents n)

lemma exists_ensureDef (hns : ns ≠ "") (hmodule : s.frame.module ≠ "")
    (hkind : (DefKind.ofTag kind.tag).isPlain) :
    ∃ r ds, ensureDef ns kind s = (.ok r, { s with world := { s.world with defs := ds } }) ∧
      ds.ref? ns = some r ∧ ∀ n r', s.world.defs.ref? n = some r' → ds.ref? n = some r' := by
  rcases run_ensureDef hns hmodule hkind with ⟨r, hr, hrun⟩ | ⟨hnone, hrun⟩
  · exact ⟨r, s.world.defs, hrun, hr, fun _ _ h => h⟩
  · refine ⟨{ ns }, _, hrun, ?_, fun n _ hr' => ?_⟩
    · rw [ref?, get?_put_of_none hnone, if_pos rfl]
      rfl
    · rw [ref?, get?_put_of_none hnone, if_neg]
      · exact hr'
      · rintro rfl
        rw [ref?, hnone] at hr'
        cases hr'

lemma exists_bindDef (hns : ns ≠ "") (hmodule : s.frame.module ≠ "")
    (hkind : (DefKind.ofTag kind.tag).isPlain)
    (hscope : s.world.scopes.contains outer) :
    ∃ t, (ensureDef ns kind >>= bindIn outer name) s = (.ok (), t) ∧ Binding s t ∧
      (t.world.defs.ref? ns).isSome ∧
      ∀ b : Block, (b.around = outer → b.name = name → b.ns = ns) →
        Binds s b ∨ b.around = outer ∧ b.name = name → Binds t b := by
  obtain ⟨r, ds, hrun, hr, hrefs⟩ := exists_ensureDef hns hmodule hkind
  obtain ⟨scope, hget⟩ := contains_iff.mp hscope
  let t : Walk Declarations :=
    { s with world := { s.world with defs := ds, scopes := s.world.scopes.bind outer name r } }
  have hbind : (ensureDef ns kind >>= bindIn outer name) s = (.ok (), t) := by
    simp [run_bind, run_map, hrun, bindIn, hasScope, getWorld, hscope, mapWorld, World.mapScopes, t]
  have hscopes (n : String) : t.world.scopes.get? n
      = if n = outer then some { scope with defs := scope.defs.set name r }
        else s.world.scopes.get? n := by
    change (s.world.scopes.bind outer name r).get? n = _
    rw [Scopes.bind, get?_modify]
    split_ifs with hn
    · rw [hn, hget]
      rfl
    · rfl
  refine ⟨t, hbind, ⟨rfl, fun n => ?_, hrefs⟩, Option.isSome_of_eq_some hr, ?_⟩
  · rw [hscopes]
    split_ifs with hn
    · rw [hn, hget]
      rfl
    · rfl
  · intro b hsame hb
    by_cases hhere : b.around = outer ∧ b.name = name
    · refine ⟨_, r, (hscopes _).trans (if_pos hhere.1), ?_, hsame hhere.1 hhere.2 ▸ hr⟩
      simp [hhere.2]
    · obtain ⟨sc, r', hsc, hr', href⟩ := hb.resolve_right hhere
      by_cases houter : b.around = outer
      · obtain rfl := Option.some.inj (hget.symm.trans (houter ▸ hsc))
        refine ⟨_, r', (hscopes _).trans (if_pos houter), ?_, hrefs _ _ href⟩
        rwa [get?_set, if_neg fun h => hhere ⟨houter, h⟩]
      · exact ⟨sc, r', (hscopes _).trans ((if_neg houter).trans hsc), hr', hrefs _ _ href⟩

lemma exists_declareBlocks (hkind : (DefKind.ofTag kind.tag).isPlain) (bs : List Block)
    (hmodule : s.frame.module ≠ "") (hplain : ∀ b ∈ bs, b.Plain)
    (hscope : ∀ b ∈ bs, s.world.scopes.contains b.around) :
    ∃ t, declareBlocks kind (bs.map Block.ns) s = (.ok (), t) ∧ Binding s t ∧
      ∀ b : Block, Binds s b ∨ b ∈ bs → Binds t b := by
  induction bs generalizing s with
  | nil => exact ⟨s, rfl, .refl s, fun b hb => hb.resolve_right (not_mem_nil)⟩
  | cons b bs ih =>
    obtain ⟨hb, hbs⟩ := forall_mem_cons.mp hplain
    obtain ⟨hscope, hscopes⟩ := forall_mem_cons.mp hscope
    have hns : b.ns ≠ "" := by simp [Block.ns, dotted]
    obtain ⟨t, hrun, hst, -, hbound⟩ :=
      @exists_bindDef s b.ns b.around b.name kind hns hmodule hkind hscope
    obtain ⟨u, hrest, htu, hall⟩ := ih (hst.frame ▸ hmodule) hbs
      fun c hc => hst.contains.trans (hscopes c hc)
    refine ⟨u, ?_, hst.trans htu, fun c hc => hall c ?_⟩
    · have hhere : dotted (components b.ns).dropLast = b.around :=
        dotted_dropLast_components _ hb.2
      have hlast : lastName b.ns = b.name := lastName_dotted hb.2
      rw [declareBlocks, map_cons, run_forM_cons, hhere, hlast]
      rw [show (ensureDef b.ns kind >>= fun r => bindIn b.around b.name r) s = _ from hrun]
      exact hrest
    · rcases hc with hc | hc
      · exact .inl (hbound c (fun h h' => by simp [Block.ns, h, h']) (.inl hc))
      · rcases mem_cons.mp hc with rfl | hc
        · exact .inl (hbound c (fun _ _ => rfl) (.inr ⟨rfl, rfl⟩))
        · exact .inr hc

abbrev blocksOf (s : Walk Declarations) (table : SymbolTable) : List Block :=
  blocksIn [s.frame.module] table.children

def opened (s : Walk Declarations) (table : SymbolTable) : Walk Declarations :=
  { s with world := { s.world with
      imports := s.world.imports.setCurrent s.frame.module s.frame.file
      scopes := (addTable s.frame.module none table (s.world.scopes, {})).1 } }

lemma run_declareModule (hnew : s.world.scopes.contains s.frame.module = false)
    (htext : s.world.files.text? s.frame.file = some text)
    (htable : Parser.program text >>= SymbolTable.ofProgram = .ok table) :
    declareModule s = (do
      ensureDef s.frame.module .module >>= bindIn s.frame.module (lastName s.frame.module)
      let found := (addTable s.frame.module none table (s.world.scopes, {})).2
      declareBlocks .function found.functions
      declareBlocks .cls found.classes
      if (← def? s.frame.module).isNone then throw Fault.kind) (opened s table) := by
  let here : Walk Declarations := { s with world := { s.world with
    imports := s.world.imports.setCurrent s.frame.module s.frame.file } }
  have hfile : fileText here = (.ok text, here) := by
    change (need .noFile (s.world.files.text? s.frame.file) : Declare String) here = _
    rw [htext]
    rfl
  have hadd : onScopes (addModule s.frame.module text) here
      = (.ok (addTable s.frame.module none table (s.world.scopes, {})).2, opened s table) := by
    simp only [onScopes, onWorld, World.onScopes, zoom, here, run_addModule htable]
    rfl
  change (ite (s.world.scopes.contains s.frame.module) _ _ : Declare Unit) here = _
  rw [if_neg (by simp [hnew]), run_bind, hfile]
  dsimp only
  rw [run_bind, hadd]
  dsimp only
  rw [bind_assoc]

lemma kind_of_program (htable : Parser.program text >>= SymbolTable.ofProgram = .ok table) :
    table.kind = .program := by
  cases hbody : Parser.program text with
  | error =>
    rw [hbody] at htable
    cases htable
  | ok body =>
    rw [hbody] at htable
    replace htable : SymbolTable.ofProgram body = .ok table := htable
    unfold SymbolTable.ofProgram at htable
    dsimp only at htable
    split_ifs at htable
    · cases htable
    · cases hrun : StateT.run (SymbolTable.stmts body) _ with
      | error =>
        rw [hrun] at htable
        cases htable
      | ok r =>
        rw [hrun] at htable
        dsimp only [Bind.bind, Except.bind] at htable
        split at htable
        · split_ifs at htable
          cases htable
          rfl
        · cases htable

section Opened

variable (hkind : table.kind = .program) (hplain : ∀ b ∈ blocksOf s table, b.Plain)

include hkind hplain

lemma get?_opened (n : String) : (opened s table).world.scopes.get? n
      = ((s.world.scopes.get? n).or (if s.frame.module = n then some { parent := none }
        else none)).or
        (madeIn (blocksOf s table) n) := by
  rw [← get?_create, ← (addTables_spec s.frame.module [] table.children _ {} hplain).1 n,
    ← addTable_program hkind]
  rfl

lemma opened_blocks : ∀ b ∈ blocksOf s table, s.frame.module.length < b.ns.length ∧
      (opened s table).world.scopes.contains b.around ∧
      (opened s table).world.scopes.contains b.ns := by
  have hhas : ∀ b ∈ blocksOf s table, (opened s table).world.scopes.contains b.ns := by
    intro b hb
    rw [contains_eq_isSome, get?_opened hkind hplain, madeIn_of_mem hplain hb]
    simp
  apply blocksIn_induction
  · intro b hb houter
    have haround : b.around = s.frame.module := by simp [Block.around, houter]
    refine ⟨haround ▸ b.length_around, ?_, hhas b hb⟩
    rw [contains_eq_isSome, get?_opened hkind hplain, haround]
    simp
  · intro b hb b' houter hb'
    have haround : b.around = b'.ns := by simp [Block.around, houter]
    exact ⟨Nat.lt_trans hb'.1 (haround ▸ b.length_around), haround ▸ hb'.2.2, hhas b hb⟩

lemma exists_declareModule (hmodule : s.frame.module ≠ "")
    (hnew : s.world.scopes.contains s.frame.module = false)
    (htext : s.world.files.text? s.frame.file = some text)
    (htable : Parser.program text >>= SymbolTable.ofProgram = .ok table) :
    ∃ t, declareModule s = (.ok (), t) ∧ Binding (opened s table) t ∧
      ∀ b ∈ blocksOf s table, Binds t b := by
  have hfound : Collects (blocksOf s table) {}
      (addTable s.frame.module none table (s.world.scopes, {})).2 :=
    addTable_program hkind _ _ ▸ (addTables_spec s.frame.module [] table.children _ {} hplain).2
  have hroot : (opened s table).world.scopes.contains s.frame.module := by
    rw [contains_eq_isSome, get?_opened hkind hplain]
    simp
  have hscope {t} (ht : Binding (opened s table) t) (kind : BlockKind) :
      ∀ b ∈ (blocksOf s table).filter (·.kind = kind),
        t.world.scopes.contains b.around := fun b hb =>
    ht.contains.trans (opened_blocks hkind hplain b (mem_of_mem_filter hb)).2.1
  obtain ⟨t₁, hrun₁, ht₁, hdef, -⟩ := @exists_bindDef (opened s table)
    s.frame.module s.frame.module (lastName s.frame.module) .module hmodule hmodule rfl hroot
  obtain ⟨t₂, hrun₂, ht₂, hbound₂⟩ := @exists_declareBlocks _ .function rfl _ (ht₁.frame ▸ hmodule)
    (fun b hb => hplain b (mem_of_mem_filter hb)) (hscope ht₁ .function)
  obtain ⟨t₃, hrun₃, ht₃, hbound₃⟩ := @exists_declareBlocks _ .cls rfl _
    ((ht₁.trans ht₂).frame ▸ hmodule)
    (fun b hb => hplain b (mem_of_mem_filter hb)) (hscope (ht₁.trans ht₂) .cls)
  refine ⟨t₃, ?_, (ht₁.trans ht₂).trans ht₃, fun b hb => hbound₃ b ?_⟩
  · rw [run_declareModule hnew htext htable, run_bind, hrun₁]
    obtain ⟨r, hr⟩ := Option.isSome_iff_exists.mp hdef
    have hdef₃ := ht₃.refs _ _ (ht₂.refs _ _ hr)
    dsimp only
    rw [run_bind, hfound.1.trans (nil_append _), hrun₂]
    dsimp only
    rw [run_bind, hfound.2.trans (nil_append _), hrun₃]
    change (ite ((t₃.world.defs.ref? s.frame.module).isNone) _ _ : Declare Unit) t₃ = _
    rw [hdef₃]
    rfl
  · rcases (hplain b hb).1 with hkind | hkind
    · exact .inl (hbound₂ b (.inr (by simp [hb, hkind])))
    · exact .inr (by simp [hb, hkind])

end Opened

/-- A module without a scope gets one that is in no other. Its blocks get scopes, each in the one
around it unless it is there already, and definitions that are bound there. A module with a scope
gets nothing. -/
theorem declareModule_nested (hmodule : s.frame.module ≠ "")
    (htext : s.world.files.text? s.frame.file = some text)
    (htable : Parser.program text >>= SymbolTable.ofProgram = .ok table)
    (hplain : ∀ b ∈ blocksOf s table, b.Plain) :
    (s.world.scopes.contains s.frame.module = true →
      (declareModule s).2.world.scopes = s.world.scopes) ∧
    (s.world.scopes.contains s.frame.module = false → ∃ t, declareModule s = (.ok (), t) ∧
      (t.world.scopes.get? s.frame.module).map (·.parent) = some none ∧
      (∀ b ∈ blocksOf s table, Binds t b ∧ (t.world.scopes.get? b.ns).map (·.parent)
          = ((s.world.scopes.get? b.ns).map (·.parent)).or (some (some b.around))) ∧
      ((∀ b ∈ blocksOf s table, s.world.scopes.contains b.ns = false) →
        ∀ b ∈ blocksOf s table, Chained t.world.scopes (b.ns :: b.outer))) := by
  constructor
  · intro hscope
    change ((ite (s.world.scopes.contains s.frame.module =
      true) _ _ : Declare Unit) _).2.world.scopes
      = _
    rw [if_pos hscope]
    change ((ite ((s.world.defs.ref? s.frame.module).isNone =
      true) _ _ : Declare Unit) _).2.world.scopes
      = _
    split_ifs <;> rfl
  · intro hnew
    have hkind := kind_of_program htable
    obtain ⟨t, hrun, ht, hbinds⟩ := exists_declareModule hkind hplain hmodule hnew htext htable
    have hroot : (t.world.scopes.get? s.frame.module).map (·.parent) = some none := by
      rw [ht.parents, get?_opened hkind hplain, Table.not_contains_iff.mp hnew]
      simp
    have hparent : ∀ b ∈ blocksOf s table, (t.world.scopes.get? b.ns).map (·.parent)
        = ((s.world.scopes.get? b.ns).map (·.parent)).or (some (some b.around)) := by
      intro b hb
      have hne : s.frame.module ≠ b.ns := fun h =>
        Nat.lt_irrefl _ (h ▸ (opened_blocks hkind hplain b hb).1)
      rw [ht.parents, get?_opened hkind hplain, if_neg hne, madeIn_of_mem hplain hb]
      cases s.world.scopes.get? b.ns <;> rfl
    refine ⟨t, hrun, hroot, fun b hb => ⟨hbinds b hb, hparent b hb⟩, fun hfree => ?_⟩
    have hown : ∀ b ∈ blocksOf s table,
        (t.world.scopes.get? b.ns).map (·.parent) = some (some b.around) := by
      intro b hb
      rw [hparent b hb, Table.not_contains_iff.mp (hfree b hb)]
      rfl
    apply blocksIn_induction
    · intro b hb houter
      have haround : b.around = s.frame.module := by simp [Block.around, houter]
      rw [houter]
      exact ⟨haround ▸ hown b hb, hroot, trivial⟩
    · intro b hb b' houter hb'
      have haround : b.around = b'.ns := by simp [Block.around, houter]
      rw [houter]
      exact ⟨haround ▸ hown b hb, hb'⟩

def oneFunction : Walk Declarations where
  world := { files := ⟨Table.ofList [("m.py", "def f():\n pass\n".toList.map (·.toNat.toUInt8))]⟩ }
  frame := { file := "m.py", module := "m" }
  own := {}

theorem oneFunction_nested : ∃ t, declareModule oneFunction = (.ok (), t) ∧
    Binds t ⟨.function, ["m"], "f"⟩ ∧ Chained t.world.scopes ["m.f", "m"] := by
  have heval : (Parser.program "def f():\n pass\n" >>= SymbolTable.ofProgram).toOption.map
      (blocksOf oneFunction) = some [⟨.function, ["m"], "f"⟩] := by decide +kernel
  obtain ⟨table, htable, hblocks⟩ := Option.map_eq_some_iff.mp heval
  have hok : Parser.program "def f():\n pass\n" >>= SymbolTable.ofProgram = .ok table := by
    revert htable
    cases Parser.program "def f():\n pass\n" >>= SymbolTable.ofProgram <;> simp [Except.toOption]
  have htext : oneFunction.world.files.text? "m.py" = some "def f():\n pass\n" := by decide +kernel
  obtain ⟨t, hrun, -, hbinds, hchained⟩ := (declareModule_nested (by decide) htext hok
    (by rw [hblocks]; simp [Block.Plain])).2 rfl
  have hmem : ⟨.function, ["m"], "f"⟩ ∈ blocksOf oneFunction table := by simp [hblocks]
  exact ⟨t, hrun, (hbinds _ hmem).1, hchained (by rw [hblocks]; simp; rfl) _ hmem⟩

/-- The module `p.q`, where the module `p` has a class `q`. -/
def takenName : Walk Declarations where
  world := {
    files := ⟨Table.ofList [("p/q.py", "def g():\n pass\n".toList.map (·.toNat.toUInt8))]⟩
    scopes := Table.ofList [("p", { parent := none }), ("p.q", { parent := some "p" })]
    defs.current := Table.ofList [("p.q", { ns := "p.q", kind := .cls, module := some "p" })] }
  frame := { file := "p/q.py", module := "p.q" }
  own := {}

/-- The scope of the class is taken for that of the module, whose function gets none. -/
theorem module_in_taken_scope : ∃ t, declareModule takenName = (.ok (), t) ∧
    (t.world.scopes.get? "p.q").map (·.parent) = some (some "p") ∧
    t.world.scopes.contains "p.q.g" = false := ⟨_, rfl, rfl, rfl⟩

end Declarations

end SinkTrace
