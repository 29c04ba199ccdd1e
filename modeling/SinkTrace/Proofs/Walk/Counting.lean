import SinkTrace.Proofs.Walk.Blocks

/-!
# Counting nameless functions

A nameless function has the number that the scope around it has counted up to. `Node.nameless?`
lists the nameless functions of a node where none of them is in a part that the passes do not visit
alike. To say that a pass numbers them in this order, the walk is watched: a watched visit raises an
alarm at a nameless function that is not the next one of the list.
-/

namespace SinkTrace

open Text List

namespace Node

/-! ### The parts that both passes visit -/

/-- The parts of a node, in the block around it, that both passes visit once. -/
def shared : Node → List Node
  | .program _ | .stmt (.functionDef _) | .stmt (.classDef _) | .stmt (.annAssign ..)
  | .stmt (.assign _ _ (.constant ..)) | .expr (.call ..) | .expr (.lambda ..) | .expr (.dict ..)
  | .expr (.list ..) => []
  | .stmt (.assign _ _ value) => [.expr value]
  | .stmt (.forLoop _ false _ _ body _) => stmts body
  | .stmt (.raise _ none _) => []
  | .stmt (.raise _ (some exc) _) => [.expr exc]
  | n => n.children

/-- The parts, in the block around, that the passes do not visit alike. -/
def unshared : Node → List Node
  | .stmt (.functionDef f) =>
    exprs (f.decorators ++ f.params.values)
  | .stmt (.annAssign _ target hint value _) => .expr target :: .expr hint :: opt value
  | .stmt (.assign _ targets (.constant loc l marked)) => exprs (.constant loc l marked :: targets)
  | .stmt (.assign _ targets _) => exprs targets
  | .stmt (.forLoop _ false target iter _ _) => [.expr target, .expr iter]
  | .expr (.call _ func args keywords) => exprs (func :: args ++ keywords.map (·.value))
  | .expr (.lambda _ ps _) => exprs ps.values
  | _ => []

lemma assign_parts (loc : Loc) (targets : List Expr) (value : Expr) :
    (∃ l c marked, value = .constant l c marked) ∨
      (Node.stmt (.assign loc targets value)).shared = [.expr value] ∧
        (Node.stmt (.assign loc targets value)).unshared = exprs targets := by
  cases value with
  | constant => exact .inl ⟨_, _, _, rfl⟩
  | _ => exact .inr ⟨rfl, rfl⟩

/-- The passes have no rule of their own for the node. -/
def isCommon : Node → Bool
  | .program _ | .stmt (.functionDef _) | .stmt (.classDef _) | .stmt (.annAssign ..)
  | .stmt (.assign ..) | .stmt (.forLoop _ false _ _ _ _) | .stmt (.raise _ none _)
  | .stmt (.raise _ (some _) _) | .expr (.call ..) | .expr (.lambda ..) => false
  | _ => true

/-- No nameless function and no call of `eval` is in the node, down to a depth. -/
def isPlain : Nat → Node → Bool
  | 0, _ => false
  | _ + 1, .program _ | _ + 1, .expr (.lambda ..) => false
  | depth + 1, .expr e => e.shortName? ≠ some "eval" && (Node.expr e).children.all (isPlain depth)
  | depth + 1, n => n.children.all (isPlain depth)

def ownMark : Node → List Nat
  | .expr (.lambda loc _ _) => [loc.mark]
  | _ => []

/-- The nameless functions of the block around in a node, if both passes visit them alike. -/
def nameless? : Nat → Node → Option (List Nat)
  | 0, _ | _ + 1, .program _ => none
  | depth + 1, n =>
    if n.unshared.all (isPlain depth) then
      (n.shared.mapM (nameless? depth)).map fun marks => n.ownMark ++ marks.flatten
    else none

def Plain (n : Node) : Prop := ∃ depth, n.isPlain depth = true

lemma Plain.children {n : Node} (h : Plain n) : ∀ c ∈ n.children, Plain c := by
  obtain ⟨depth, h⟩ := h
  intro c hc
  unfold isPlain at h
  split at h
  · cases h
  · cases h
  · cases h
  · next depth e _ =>
    rw [Bool.and_eq_true, all_eq_true] at h
    exact ⟨depth, h.2 c hc⟩
  · next depth _ _ _ =>
    rw [all_eq_true] at h
    exact ⟨depth, h c hc⟩

lemma hereditary_plain : Walk.Hereditary Plain := fun _ => Plain.children

lemma not_plain_program {body : List Stmt} : ¬ Plain (.program body) := by
  rintro ⟨_ | depth, h⟩ <;> simp [isPlain] at h

lemma not_plain_lambda {loc : Loc} {ps : Params Expr} {body : Expr} :
    ¬ Plain (.expr (.lambda loc ps body)) := by
  rintro ⟨_ | depth, h⟩ <;> simp [isPlain] at h

lemma Plain.ownMark {n : Node} (h : Plain n) : n.ownMark = [] := by
  unfold Node.ownMark
  split
  · exact absurd h not_plain_lambda
  · rfl

lemma Plain.ne_eval {e : Expr} (h : Plain (.expr e)) : e.shortName? ≠ some "eval" := by
  obtain ⟨_ | depth, h⟩ := h
  · cases h
  · intro heval
    cases e <;> simp_all [isPlain]

lemma exists_of_nameless? {depth : Nat} {n : Node} (h : n.nameless? depth = some marks) :
    (∀ body, n ≠ .program body) ∧ (∀ c ∈ n.unshared, Plain c) ∧
      ∃ d rest, n.shared.mapM (nameless? d) = some rest ∧ marks = n.ownMark ++ rest.flatten := by
  unfold nameless? at h
  split at h
  · cases h
  · cases h
  · next n depth hn =>
    split_ifs at h with hplain
    obtain ⟨rest, hrest, rfl⟩ := Option.map_eq_some_iff.mp h
    rw [all_eq_true] at hplain
    exact ⟨fun body hbody => hn body hbody, fun c hc => ⟨depth, hplain c hc⟩, depth, rest,
      hrest, rfl⟩

def namelessIn? (depth : Nat) (body : List Stmt) : Option (List Nat) :=
  ((stmts body).mapM (nameless? depth)).map List.flatten

end Node

namespace Walk

open Act

variable {ρ : Type} {inner names : List String} {depth mark : Nat} {marks : List Nat} {s : Walk ρ}

/-! ### Counting -/

/-- The scope of these blocks has counted up to `c`. -/
def Counted (names : List String) (c : Nat) (s : Walk ρ) : Prop :=
  s.world.scopes.lambdas (Text.dotted names) = c

lemma dotted_ne_inner (hnames : names ≠ []) (name : String) (rest : List String) :
    dotted (names ++ name :: rest) ≠ dotted names := by
  have hlength (a : String) (as : List String) :
      (dotted (a :: as)).length < (dotted (a :: as ++ name :: rest)).length := by
    induction as generalizing a with
    | nil =>
      have hdot : ".".length = 1 := rfl
      simp [dotted, String.intercalate_cons_cons, hdot]
      omega
    | cons b bs ih =>
      have hb := ih b
      simp only [dotted, cons_append, String.intercalate_cons_cons, String.length_append] at hb ⊢
      omega
  obtain ⟨a, as, rfl⟩ := exists_cons_of_ne_nil hnames
  exact fun heq => absurd (congrArg String.length heq) (by have := hlength a as; omega)

def Rooted (names : List String) : Prop := names.headD "" ≠ ""

lemma Rooted.ne_nil (h : Rooted names) : names ≠ [] := by
  rintro rfl
  exact h rfl

lemma Rooted.append (h : Rooted names) (rest : List String) : Rooted (names ++ rest) := by
  obtain ⟨a, as, rfl⟩ := exists_cons_of_ne_nil h.ne_nil
  exact h

lemma Rooted.names_of_at {p : Place} (h : Rooted p.names) {f : Frame} (hat : p.At f) :
    f.names = p.names := by
  refine hat.names_eq fun _ hhead => h ?_
  rw [headD_eq_head?_getD, hhead]
  rfl

/-- No block inside of these ones has the scope of the blocks `names`. -/
structure Apart (names inner : List String) : Prop where
  rooted : Rooted inner
  ne : ∀ rest, dotted (inner ++ rest) ≠ dotted names

lemma apart_inner (h : Rooted names) (name : String) : Apart names (names ++ [name]) where
  rooted := h.append _
  ne rest := by
    rw [append_assoc]
    exact dotted_ne_inner h.ne_nil name rest

lemma Apart.deeper (h : Apart names inner) (name : String) : Apart names (inner ++ [name]) where
  rooted := h.rooted.append _
  ne rest := by
    rw [append_assoc]
    exact h.ne _

lemma Apart.of_holds {p q : Place} (h : ∀ name, Apart names (p.names ++ [name])) (hq : p.Holds q) :
    Apart names q.names := by
  obtain ⟨name, rfl | rfl | rfl⟩ := hq <;> exact h name

lemma Apart.dotted_ne {p : Place} (h : Apart names p.names) {f : Frame} (hat : p.At f) :
    dotted f.names ≠ dotted names := by
  have hne := h.ne []
  rwa [append_nil, ← h.rooted.names_of_at hat] at hne

lemma lambdas_modify_of_ne {ss : Scopes} {ns m : String} {f : Scope → Scope} (h : m ≠ ns) :
    Scopes.lambdas (ss.modify ns f) m = ss.lambdas m := by
  unfold Scopes.lambdas
  rw [Table.get?_modify, if_neg h]

variable {X : World → World → Prop} {K : Walk ρ → Prop} {c : Nat}

/-- The condition is about the module, what is analysed and the import graph only. -/
def Steady (K : Walk ρ → Prop) : Prop :=
  ∀ s t : Walk ρ, t.frame.module = s.frame.module → t.frame.analyzed = s.frame.analyzed →
    t.world.imports.graph = s.world.imports.graph → K s → K t

abbrev Counting (K : Walk ρ → Prop) (names : List String) (c : Nat) (s : Walk ρ) : Prop :=
  Counted names c s ∧ K s

lemma tolerant_counted (hX : ∀ w w', X w w' → ∀ ns, w'.scopes.lambdas ns = w.scopes.lambdas ns)
    (hrefl : ∀ w, X w w)
    (hcreate : ∀ (w : World) ns parent, X w { w with scopes := w.scopes.create ns parent })
    (hK : Steady K) (hstep : Stable K (Aside X)) (c : Nat) :
    Tolerant X (Apart names) Any (Counting K names c) where
  refl := hrefl
  create := hcreate
  step s t hs hst := ⟨(hX _ _ hst.world _).trans hs.1, hstep s t hs.2 hst⟩
  fails _ _ := trivial
  move s _ _ _ hs := ⟨hs.1, hK s _ rfl rfl rfl hs.2⟩
  deeper _ name h := h.deeper name
  renumber _ s _ hp hat _ hs :=
    ⟨(lambdas_modify_of_ne (hp.dotted_ne hat).symm).trans hs.1, hK s _ rfl rfl rfl hs.2⟩

lemma run_nextLambda_none (h : s.world.scopes.get? (dotted s.frame.names) = none) :
    nextLambda s = (.error .absent, s) := by
  change (need .absent (s.world.scopes.get? (dotted s.frame.names)) >>= _) s = _
  rw [h]
  rfl

lemma run_nextLambda_some {scope : Scope}
    (h : s.world.scopes.get? (dotted s.frame.names) = some scope) :
    nextLambda s = (.ok (Numbered.lambda.nameOf (toString (scope.lambdas + 1))),
      { s with world := { s.world with
        scopes := s.world.scopes.modify (dotted s.frame.names)
          fun _ => scope.addCount 1 .lambda } }) := by
  change (need .absent (s.world.scopes.get? (dotted s.frame.names)) >>= _) s = _
  rw [h]
  rfl

/-! ### Watched visits -/

def named (marks : List Nat) : List (Nat × String) :=
  marks.zipIdx.map fun (mark, k) => (mark, Numbered.lambda.nameOf (toString ((k : Int) + 1)))

/-- The walk gives the nameless function with this mark a name that is not the listed one. -/
def misnames (names : List String) (marks : List Nat) (mark : Nat) (s : Walk ρ) : Bool :=
  match (nextLambda s).1 with
  | .ok name => s.frame.names = names && !(named marks).contains (mark, name)
  | .error _ => false

/-- Visits that raise an alarm at a nameless function in the blocks `names` that is misnamed. -/
def inOrder (alarm : Fault) (names : List String) (marks : List Nat)
    (visit : Node → Roam ρ Unit) : Node → Roam ρ Unit
  | .expr (.lambda loc params body) => do
    if misnames names marks loc.mark (← get) then throw alarm
    visit (.expr (.lambda loc params body))
  | n => visit n

lemma misnames_of_ne (h : s.frame.names ≠ names) : misnames names marks mark s = false := by
  unfold misnames
  split
  · simp [h]
  · rfl

lemma misnames_of_counted (hs : Counted names c s)
    (hmark : marks[c]? = some mark) : misnames names marks mark s = false := by
  by_cases hnames : s.frame.names = names
  · cases hscope : s.world.scopes.get? (dotted s.frame.names) with
    | none => rw [misnames, run_nextLambda_none hscope]
    | some scope =>
      have hlambdas : scope.lambdas = c := by
        rw [← hs, Scopes.lambdas, ← hnames, hscope]
        rfl
      have hlisted : (mark, Numbered.lambda.nameOf (toString (scope.lambdas + 1))) ∈
          named marks := by
        rw [hlambdas]
        exact mem_map.mpr ⟨(mark, c), mk_mem_zipIdx_iff_getElem?.mpr hmark, rfl⟩
      rw [misnames, run_nextLambda_some hscope]
      simp only [contains_iff_mem.mpr hlisted, Bool.not_true, Bool.and_false]
  · exact misnames_of_ne hnames

variable {alarm : Fault} {a : Roam ρ Unit}
  {visit : Node → Roam ρ Unit} {E I J : Walk ρ → Prop} {n : Node}

lemma alike_inOrder (h : Alike E I J a (visit n))
    (hnamed : ∀ s, I s → ∀ m ∈ n.ownMark, misnames names marks m s = false) :
    Alike E I J a (inOrder alarm names marks visit n) := by
  intro s hs
  have hsame : inOrder alarm names marks visit n s = visit n s := by
    unfold inOrder
    split
    · next loc params body =>
      have hpass : misnames names marks loc.mark s = false := hnamed s hs _ (mem_singleton_self _)
      simp only [run_bind, run_get, hpass]
      rfl
    · rfl
  rw [hsame]
  exact h s hs

/-- The node is apart from the blocks `names`, or in these and without nameless functions. -/
def Fits (names : List String) (p : Place) (n : Node) : Prop :=
  IsPart n ∧ Apart names p.names ∨ n.Plain ∧ Rooted names ∧ p.names = names

namespace Fits

variable {p q : Place} {m : Node} {e : Expr}

lemma isPart (h : Fits names p n) : IsPart n := by
  rcases h with ⟨h, -⟩ | ⟨h, -⟩
  · exact h
  · rintro body rfl
    exact Node.not_plain_program h

lemma hereditary : Hereditary (Fits names p) := by
  rintro n (⟨h, hp⟩ | ⟨h, hp⟩) c hc
  · exact .inl ⟨hereditary_isPart n h c hc, hp⟩
  · exact .inr ⟨h.children c hc, hp⟩

lemma deeper (h : Fits names p n) (name : String) : Apart names (p.names ++ [name]) := by
  rcases h with ⟨-, h⟩ | ⟨-, h, rfl⟩
  · exact h.deeper name
  · exact apart_inner h name

lemma inside (h : Fits names p n) (hq : p.Holds q) (hm : IsPart m) : Fits names q m :=
  .inl ⟨hm, .of_holds h.deeper hq⟩

lemma of_lambda {loc : Loc} {ps : Params Expr} (h : Fits names p (.expr (.lambda loc ps e))) :
    Apart names p.names := h.elim (·.2) fun h => absurd h.1 Node.not_plain_lambda

lemma of_eval (h : Fits names p (.expr e)) (heval : e.shortName? = some "eval") (hm : IsPart m) :
    Fits names p m := .inl ⟨hm, h.elim (·.2) fun h => absurd heval h.1.ne_eval⟩

lemma not_misnames (h : Fits names p n) (hat : p.At s.frame) :
    ∀ m ∈ n.ownMark, misnames names marks m s = false := by
  rcases h with ⟨-, h⟩ | ⟨h, -⟩
  · exact fun _ _ => misnames_of_ne fun heq => h.dotted_ne hat (congrArg dotted heq)
  · rw [h.ownMark]
    nofun

end Fits

/-- At a place in the blocks `names`, the two actions do the same and count from `c` up to `c'`. -/
abbrev CountsAt (K : Walk ρ → Prop) (names : List String) (p : Place) (c c' : Nat)
    (a b : Roam ρ Unit) : Prop :=
  Alike Any (Here p (Counting K names c)) (Here p (Counting K names c')) a b

variable {p : Place} {c' : Nat} {v w : Node → Roam ρ Unit}

lemma CountsAt.of_nil {b : Roam ρ Unit} (h : Alike Any J (Here p (Counting K names c)) a b)
    (hnil : CountsAt K names p c c' (([] : List Node).forM v) (([] : List Node).forM w)) :
    Alike Any J (Here p (Counting K names c')) a b := by
  intro s hs
  obtain ⟨hsame, hend⟩ := h s hs
  refine ⟨hsame, ?_⟩
  rcases hrun : a s with ⟨_ | _, t⟩
  · trivial
  · rw [hrun] at hend
    exact (hnil t hend).2

lemma CountsAt.of_singleton (h : CountsAt K names p c c' ([n].forM v) ([n].forM w)) :
    CountsAt K names p c c' (v n) (w n) := by
  rwa [forM_singleton, forM_singleton] at h

lemma alike_nextLambda (hK : Steady K) (hnames : Rooted names) (hp : p.names = names) :
    Alike Any (Here p (Counting K names c)) (Here p (Counting K names (c + 1)))
      nextLambda nextLambda := by
  rintro s ⟨hat, hs, hcond⟩
  refine ⟨rfl, ?_⟩
  subst hp
  have hframe : s.frame.names = p.names := hnames.names_of_at hat
  cases hscope : s.world.scopes.get? (dotted s.frame.names) with
  | none =>
    rw [run_nextLambda_none hscope]
    trivial
  | some scope =>
    rw [run_nextLambda_some hscope]
    refine ⟨hat, ?_, hK s _ rfl rfl rfl hcond⟩
    have hlambdas : scope.lambdas = c := by
      rw [← hs, Scopes.lambdas, ← hframe, hscope]
      rfl
    rw [Counted, Scopes.lambdas, ← hframe]
    simp [Table.get?_modify, hscope, Scope.addCount, hlambdas]

lemma prefix_drop_of_append {as bs : List Nat} (h : as ++ bs <+: marks.drop c) :
    as <+: marks.drop c ∧ bs <+: marks.drop (c + as.length) := by
  obtain ⟨rest, hrest⟩ := h
  refine ⟨⟨bs ++ rest, by rw [← append_assoc, hrest]⟩, rest, ?_⟩
  rw [← drop_drop, ← hrest, append_assoc, drop_left]

lemma countsAt_parts
    (h : ∀ n ls c, n.nameless? depth = some ls → ls <+: marks.drop c →
      CountsAt K names p c (c + ls.length) (v n) (w n))
    {ns : List Node} {lss : List (List Nat)} (hns : ns.mapM (Node.nameless? depth) = some lss)
    (hlss : lss.flatten <+: marks.drop c) :
    CountsAt K names p c (c + lss.flatten.length) (ns.forM v) (ns.forM w) := by
  induction ns generalizing c lss with
  | nil =>
    cases hns
    exact .pure _
  | cons n ns ih =>
    rw [mapM_cons] at hns
    obtain ⟨ls, hls, hns⟩ := Option.bind_eq_some_iff.mp hns
    obtain ⟨lss, hlss', hns⟩ := Option.bind_eq_some_iff.mp hns
    cases hns
    rw [flatten_cons] at hlss
    obtain ⟨hfirst, hrest⟩ := prefix_drop_of_append hlss
    refine (h n ls c hls hfirst).bind fun _ => ?_
    rw [flatten_cons, length_append, ← Nat.add_assoc]
    exact ih hlss' hrest

lemma countsAt_node
    (h : ∀ d n ls c, n.nameless? d = some ls → ls <+: marks.drop c →
      CountsAt K names p c (c + ls.length) (v n) (w n))
    (hn : n.nameless? depth = some ls) (hls : ls <+: marks.drop c)
    (hrule : ∀ c', IsPart n → (∀ m ∈ n.unshared, m.Plain) →
      CountsAt K names p (c + n.ownMark.length) c' (n.shared.forM v) (n.shared.forM w) →
      CountsAt K names p c c' a (visit n)) :
    CountsAt K names p c (c + ls.length) a (inOrder alarm names marks visit n) := by
  obtain ⟨hpart, hunshared, d, rest, hrest, rfl⟩ := Node.exists_of_nameless? hn
  obtain ⟨hown, hparts⟩ := prefix_drop_of_append hls
  have hshared := countsAt_parts (h d) hrest hparts
  rw [length_append, ← Nat.add_assoc]
  refine alike_inOrder (hrule _ hpart hunshared hshared) fun s hs m hm =>
    misnames_of_counted hs.2.1 ?_
  have hmark : n.ownMark = [m] := by
    unfold Node.ownMark at hm ⊢
    split at hm
    · rw [mem_singleton.mp hm]
    · cases hm
  obtain ⟨later, hlater⟩ := hown
  rw [← head?_drop, ← hlater, hmark]
  rfl

lemma countsAt_common (hI : ∀ c, Tolerant X (Apart names) Any (Counting K names c))
    (hD : ∀ name, Apart names (p.names ++ [name]))
    (hinside : ∀ q, p.Holds q → ∀ n, IsPart n → ∀ c, CountsAt K names q c c (v n) (w n))
    (hn : n.isCommon)
    (hshared : CountsAt K names p (c + n.ownMark.length) c' (n.shared.forM v) (n.shared.forM w)) :
    CountsAt K names p c c' (visitCommon v n) (visitCommon w n) := by
  unfold visitCommon
  split
  · cases hn
  · cases hn
  · cases hn
  · cases hn
  · refine CountsAt.of_nil ((hI c).inNumbered hD fun name => .forM fun _ _ =>
      .forM fun e _ => ?_) hshared
    exact hinside _ p.holds_inBlock (.expr e) nofun c
  · refine CountsAt.of_nil ((hI c).inNumbered hD fun _ => .forM fun e _ => ?_) hshared
    exact hinside _ p.holds_inBlock (.expr e) nofun c
  · have hchildren : n.shared = n.children := by
      unfold Node.shared
      split <;> grind [Node.isCommon]
    have hmark : n.ownMark = [] := by
      unfold Node.ownMark
      split <;> grind [Node.isCommon]
    rwa [hchildren, hmark] at hshared

/-! ### Blocks -/

/-- The statements of a block, whose scope starts to number anew. -/
def block (visit : Node → Roam ρ Unit) (body : List Stmt) : Roam ρ Unit := do
  resetScope (← currentNs)
  body.forM fun s => visit (.stmt s)

/-- In the blocks `names`, in a walk with `K`, the watched visits do the same, and number all the
nameless functions. -/
structure Numbers (K : Walk ρ → Prop) (names : List String) (marks : List Nat) (body : List Stmt)
    (visit watched : Node → Roam ρ Unit) : Prop where
  unalarmed : ∀ s, s.frame.names = names → K s → block watched body s = block visit body s
  complete : ∀ s t, s.frame.names = names → K s → block visit body s = (.ok (), t) →
    Counted names marks.length t

lemma counting_reset (hK : Steady K) (hs : K s) :
    Counting K s.frame.names 0 { s with world := { s.world with
      scopes := s.world.scopes.modify (dotted s.frame.names) Scope.resetCounts } } := by
  refine ⟨?_, hK s _ rfl rfl rfl hs⟩
  change Scopes.lambdas (Table.modify s.world.scopes _ _) _ = _
  rw [Scopes.lambdas, Table.get?_modify, if_pos rfl]
  cases Table.get? s.world.scopes (dotted s.frame.names) with
  | none => rfl
  | some scope => rfl

lemma numbers_of_visits (hK : Steady K) {body : List Stmt}
    (hbody : Node.namelessIn? depth body = some marks)
    (h : ∀ p : Place, p.names = names → ∀ n ls c, n.nameless? depth = some ls →
      ls <+: marks.drop c → CountsAt K names p c (c + ls.length) (v n) (w n)) :
    Numbers K names marks body v w := by
  obtain ⟨lss, hlss, rfl⟩ := Option.map_eq_some_iff.mp hbody
  have hparts (p : Place) (hp : p.names = names) :=
    countsAt_parts (c := 0) (h p hp) hlss prefix_rfl
  simp only [Node.stmts, forM_map, Nat.zero_add] at hparts
  have hstart {s : Walk ρ} (hs : K s) := And.intro
    (Place.at_of_eq rfl rfl rfl : (Place.ofFrame s.frame).At s.frame) (counting_reset hK hs)
  constructor
  · rintro s rfl hs
    exact (hparts (.ofFrame s.frame) rfl _ (hstart hs)).1.symm
  · rintro s t rfl hs hrun
    exact ((hparts (.ofFrame s.frame) rfl).keeps (hstart hs) hrun).2.1

end Walk

end SinkTrace
