import SinkTrace.Proofs.Import
import SinkTrace.Proofs.Text.Split

/-!
# Relative imports

The dots of a relative import count twice: the package is taken as many levels up as they say, and
then they are written before the name. So with one dot the search starts in the right package, and
with more dots it starts farther out.
-/

namespace SinkTrace

open Text

namespace Imports

open Act

variable {rest : List (String × String)}

def Clean (x : String) : Prop := x ≠ "" ∧ '.' ∉ x.toList

instance (x : String) : Decidable (Clean x) := inferInstanceAs (Decidable (_ ∧ _))

/-! ### Modules in the tree -/

/-- The directory of a package, by the files alone. -/
def packageDir (files : FileTree) : String → List String → Option String
  | dir, [] => some dir
  | dir, x :: xs => ((lookIn files dir x).bind (·.dir)).bind fun d => packageDir files d xs

def locate (files : FileTree) (dir : String) (full : List String) : Option Loaded :=
  full.getLast?.bind fun x => (packageDir files dir full.dropLast).bind fun d => lookIn files d x

variable {top name f root dir x : String} {s : Imports} {full xs : List String} {l : Loaded}
  {files : FileTree}

lemma components_dotted (hxs : xs ≠ []) (h : ∀ x ∈ xs, Clean x) : components (dotted xs) = xs :=
  splitOn_intercalate rfl hxs fun x hx => (h x hx).2

lemma cutLast?_dotted (xs : List String) (hx : Clean x) : cutLast? (dotted (xs ++ [x])) "."
      = if xs = [] then none else some (dotted xs, x) := by
  split_ifs with hxs
  · subst hxs
    simpa [dotted] using cutLast?_of_not_mem rfl hx.2
  · rw [dotted, String.intercalate_append_of_ne_nil hxs (List.cons_ne_nil _ _)]
    simpa [dotted] using cutLast?_append rfl _ hx.2

lemma dotted_ne_empty (hxs : xs ≠ []) (h : ∀ x ∈ xs, Clean x) : dotted xs ≠ "" := by
  intro hempty
  have hparts := components_dotted hxs h
  rw [hempty] at hparts
  obtain rfl : xs = [""] := hparts.symm.trans (splitOn_of_not_mem rfl (by simp))
  exact (h "" List.mem_cons_self).1 rfl

lemma dot_ne_dotted (hxs : xs ≠ []) (h : ∀ x ∈ xs, Clean x) (r : String) :
    "." ++ r ≠ dotted xs := by
  intro hdot
  have hsplit := splitOn_append (c := '.') (rfl : ".".toList = ['.']) (s := "") (by simp) r
  rw [String.empty_append, hdot] at hsplit
  have hparts : "" :: _ = xs := hsplit.symm.trans (components_dotted hxs h)
  exact (h "" (hparts ▸ List.mem_cons_self)).1 rfl

lemma lookIn_dotted (files : FileTree) (dir : String) (xs : List String) (hx : Clean x) :
    lookIn files dir (dotted (xs ++ [x])) = lookIn files dir x := by
  have hlast : lastName (dotted (xs ++ [x])) = lastName x := by
    unfold lastName
    rw [cutLast?_dotted xs hx, cutLast?_of_not_mem rfl hx.2]
    split_ifs with hxs
    · simp [hxs, dotted]
    · rfl
  unfold lookIn
  rw [hlast]

lemma packageDir_append (dir : String) (xs ys : List String) :
    packageDir files dir (xs ++ ys) = (packageDir files dir xs).bind fun d =>
    packageDir files d ys := by
  induction xs generalizing dir with
  | nil => rfl
  | cons x xs ih =>
    simp only [List.cons_append, packageDir]
    cases (lookIn files dir x).bind (·.dir) with
    | none => rfl
    | some d => exact ih d

lemma locate_concat (files : FileTree) (dir : String) (xs : List String) (x : String) :
    locate files dir (xs ++ [x]) = (packageDir files dir xs).bind fun d => lookIn files d x := by
  simp [locate]

lemma isOuter_of_locate (h : locate files dir full = some l) : l.isOuter = false := by
  simp only [locate, Option.bind_eq_some_iff] at h
  obtain ⟨x, -, d, -, h⟩ := h
  unfold lookIn at h
  grind

/-! ### The search -/

/-- The loaded modules with files have nodes, and were found in the files. -/
structure Ready (top : String) (files : FileTree) (root : String) (is : Imports) : Prop where
  files_eq : is.files = files
  dir_eq : is.dir = root
  node : is.graph.contains is.current = true
  named : is.current ≠ ""
  loaded : ∀ full l, full.head? = some top → (∀ x ∈ full, Clean x) →
    is.loaded.get? (Text.dotted full) = some l → locate files root full = some l
  drawn : ∀ m l, is.loaded.get? m = some l → l.file.isSome = true → is.graph.contains m = true
  undotted : ∀ s, is.loaded.get? ("." ++ s) = none
  pathless : files.isFile "" = false

/-- The search gives `v` and leaves everything ready. -/
def Leaves (top : String) (files : FileTree) (root : String) (is : Imports) {α : Type}
    (a : Act Imports α) (v : α) : Prop := ∃ t, a is = (.ok v, t) ∧ Ready top files root t

lemma Ready.draw (h : Ready top files root s) {g : Table String ImportNode}
    (hg : ∀ m, s.graph.contains m → g.contains m) :
    Ready top files root { s with graph := g } :=
  { h with node := hg _ h.node, drawn := fun m l hl hf => hg m (h.drawn m l hl hf) }

lemma run_createEdge (hs : Ready top files root s) (hname : name ≠ "") :
    createEdge name s = (.ok (), s.adjustNode s.current fun n =>
      { n with imports := n.imports.insertEnd name }) := by
  simp [createEdge, run_bind, hname, hs.node]

lemma run_findIn (hs : Ready top files root s) (hname : name ≠ "") (dir : String) :
    ∃ g, findIn dir name s = (.ok (lookIn files dir name), { s with graph := g }) ∧
      (∀ m, s.graph.contains m → g.contains m) ∧
      (((lookIn files dir name).bind (·.file)).isSome → g.contains name) := by
  obtain rfl := hs.files_eq
  cases hfile : (lookIn s.files dir name).bind (·.file) with
  | none => exact ⟨s.graph, by simp [findIn, run_bind, hfile], fun _ h => h, nofun⟩
  | some f =>
    have hf : f ≠ "" := by
      rintro rfl
      obtain ⟨l, hl, hf⟩ := Option.bind_eq_some_iff.mp hfile
      exact absurd (isFound_lookIn hl "" hf) (by simp [hs.pathless])
    have hset (t : Table String ImportNode) : (t.set name {}).contains name :=
      Table.contains_set.mpr (.inl rfl)
    cases hnode : s.graph.contains name with
    | true =>
      refine ⟨?graph, ?run, ?more, ?name⟩
      case run =>
        simp [findIn, run_bind, hfile, noteFound, run_createEdge hs hname, adjustNode, hnode]
        rfl
      case more => simp
      case name => simpa using hnode
    | false =>
      refine ⟨?drawn, ?run', ?more', ?name'⟩
      case run' =>
        simp [findIn, run_bind, hfile, noteFound, run_createEdge hs hname, adjustNode,
          hnode, addNode, createNode, setFilename, createReverseEdge, hname, hset, hs.named]
        rfl
      case more' =>
        intro m hm
        simp [Table.contains_set, hm]
      case name' => simp [hset]

lemma leaves_loadFrom (hs : Ready top files root s) (htop : (xs ++ [x]).head? = some top)
    (hclean : ∀ y ∈ xs ++ [x], Clean y) (hdir : packageDir files root xs = some dir) :
    Leaves top files root s (loadFrom dir (dotted (xs ++ [x]))) (lookIn files dir x) := by
  have hlocate := locate_concat files root xs x
  rw [hdir, Option.bind_some] at hlocate
  cases hloaded : s.loaded.get? (dotted (xs ++ [x])) with
  | some l =>
    rw [← hlocate, hs.loaded _ l htop hclean hloaded]
    exact ⟨s, by simp [loadFrom, run_bind, hloaded], hs⟩
  | none =>
    obtain ⟨g, hrun, hg, hname⟩ := run_findIn hs (dotted_ne_empty (by simp) hclean) dir
    rw [lookIn_dotted files dir xs (hclean x (by simp))] at hrun hname
    cases hl : lookIn files dir x with
    | none =>
      rw [hl] at hrun
      exact ⟨_, by simp [loadFrom, run_bind, hloaded, hrun], hs.draw hg⟩
    | some l =>
      rw [hl] at hrun hlocate hname
      refine ⟨{ s with graph := g, loaded := s.loaded.set (dotted (xs ++ [x])) l }, ?_,
        { hs.draw hg with
          loaded := fun full l' htop' hclean' hl' => ?_, drawn := fun m l' hl' hf => ?_,
          undotted := fun r => ?_ }⟩
      · simp [loadFrom, run_bind, run_map, hloaded, hrun]
      · rw [Table.get?_set] at hl'
        split_ifs at hl' with heq
        · have hfull : full ≠ [] := List.ne_nil_of_mem (List.mem_of_mem_head? htop')
          rw [← components_dotted hfull hclean', heq, components_dotted (by simp) hclean,
            hlocate, hl']
        · exact hs.loaded full l' htop' hclean' hl'
      · rw [Table.get?_set] at hl'
        split_ifs at hl' with heq
        · cases hl'
          exact heq ▸ hname hf
        · exact hg m (hs.drawn m l' hl' hf)
      · rw [Table.get?_set, if_neg (dot_ne_dotted (by simp) hclean r)]
        exact hs.undotted r

lemma leaves_load (full : List String) (hs : Ready top files root s)
    (hclean : ∀ y ∈ full ++ xs, Clean y)
    (htop : (full ++ xs).head? = some top) (hdir : packageDir files root full = some dir)
    (hxs : xs ≠ []) :
    ∃ v, Leaves top files root s (load dir full xs) v ∧
    v.bind (·.dir) = packageDir files dir xs := by
  induction xs generalizing full dir s with
  | nil => exact absurd rfl hxs
  | cons x xs ih =>
    have hsplit : full ++ x :: xs = full ++ [x] ++ xs := by simp
    rw [hsplit] at htop hclean
    have hfirst : (full ++ [x]).head? = some top := by
      rw [← htop]
      cases full <;> rfl
    obtain ⟨t, hrun, ht⟩ :=
      leaves_loadFrom hs hfirst (fun y hy => hclean y (List.mem_append_left _ hy)) hdir
    cases hl : lookIn files dir x with
    | none => exact ⟨none, ⟨t, by simp [load, run_bind, hrun, hl], ht⟩, by simp [packageDir, hl]⟩
    | some l =>
      cases xs with
      | nil =>
        refine ⟨some l, ⟨t, by simp [load, run_bind, hrun, hl], ht⟩, ?_⟩
        simp only [packageDir, hl, Option.bind_some]
        cases l.dir <;> rfl
      | cons y ys =>
        cases hd : l.dir with
        | none =>
          exact ⟨none, ⟨t, by simp [load, run_bind, hrun, hl, hd], ht⟩,
            by simp [packageDir, hl, hd]⟩
        | some d =>
          obtain ⟨v, ⟨u, hrun', hu⟩, hv⟩ := @ih d t (full ++ [x]) ht hclean htop
            (by simp [packageDir_append, hdir, packageDir, hl, hd]) (by simp)
          refine ⟨v, ⟨u, ?_, hu⟩, ?_⟩
          · rw [← hrun']
            simp [load, run_bind, hrun, hl, hd]
          · rw [hv]
            simp [packageDir, hl, hd]

lemma leaves_find (hs : Ready top files root s) (htop : full.head? = some top)
    (hclean : ∀ y ∈ full, Clean y) :
    Leaves top files root s (find (dotted full)) (locate files root full) := by
  obtain rfl := hs.dir_eq
  have hfull : full ≠ [] := List.ne_nil_of_mem (List.mem_of_mem_head? htop)
  obtain ⟨xs, x, rfl⟩ : ∃ xs x, full = xs ++ [x] :=
    ⟨_, _, (List.dropLast_concat_getLast hfull).symm⟩
  have hx := hclean x (by simp)
  have hname := dotted_ne_empty (by simp) hclean
  cases hloaded : s.loaded.get? (dotted (xs ++ [x])) with
  | some l =>
    rw [hs.loaded _ l htop hclean hloaded]
    exact ⟨s, by simp [find, run_bind, hloaded], hs⟩
  | none =>
    rw [locate_concat]
    by_cases hxs : xs = []
    · subst hxs
      obtain ⟨g, hrun, hg, -⟩ := run_findIn hs hname s.dir
      rw [lookIn_dotted files s.dir [] hx] at hrun
      refine ⟨_, ?_, hs.draw hg⟩
      simp only [find, run_bind, run_get, hloaded, cutLast?_dotted [] hx, if_true]
      exact hrun
    · have hclean' := fun y hy => hclean y (List.mem_append_left [x] hy)
      have htop' : ([] ++ xs).head? = some top := by
        rw [← htop, List.head?_append_of_ne_nil _ hxs, List.nil_append]
      obtain ⟨v, ⟨t, hrun, ht⟩, hv⟩ := leaves_load [] hs hclean' htop' rfl hxs
      rw [← hv]
      simp only [Leaves, find, run_bind, run_get, hloaded, cutLast?_dotted xs hx, hxs, if_false,
        components_dotted hxs hclean', hrun]
      rcases v with _ | ⟨file, _ | d, outer⟩
      · exact ⟨t, rfl, ht⟩
      · exact ⟨t, rfl, ht⟩
      · obtain ⟨g, hrun', hg, -⟩ := run_findIn ht hname d
        rw [lookIn_dotted files d xs hx] at hrun'
        exact ⟨_, hrun', ht.draw hg⟩

/-! ### Dots -/

lemma dots_succ (n : Nat) : times (n + 1) "." = "." ++ times n "." := by
  simp [times, List.replicate_succ]

lemma toList_dots (n : Nat) : (times n ".").toList = List.replicate n '.' := by
  induction n with
  | zero => rfl
  | succ n ih => rw [dots_succ, String.toList_append, ih, List.replicate_succ]; rfl

lemma components_dots {n : Nat} (hxs : xs ≠ []) (h : ∀ x ∈ xs, Clean x) :
    components (times n "." ++ dotted xs) = List.replicate n "" ++ xs := by
  induction n with
  | zero => exact components_dotted hxs h
  | succ n ih =>
    rw [dots_succ, String.append_assoc, List.replicate_succ, List.cons_append, ← ih]
    exact splitOn_append (c := '.') rfl (s := "") (by simp) _

lemma dotted_dots (n : Nat) (hxs : xs ≠ []) :
    dotted (List.replicate n "" ++ xs) = times n "." ++ dotted xs := by
  induction n with
  | zero => simp [times]
  | succ n ih =>
    rw [dots_succ, String.append_assoc, ← ih, List.replicate_succ, List.cons_append]
    simp only [dotted]
    rw [String.intercalate_cons_of_ne_nil (by simp [hxs]), String.empty_append]

lemma takeWhile_dotted (h : ∀ x ∈ xs, Clean x) : (dotted xs).toList.takeWhile (· = '.') = [] := by
  cases hc : (dotted xs).toList with
  | nil => rfl
  | cons c cs =>
    have hxs : xs ≠ [] := by
      rintro rfl
      cases hc
    have hne : c ≠ '.' := by
      rintro rfl
      exact dot_ne_dotted hxs h (String.ofList cs) (String.toList_inj.mp (by simp [hc]))
    simp [hne]

lemma resolve_dots {P M : List String} (hP : ∀ x ∈ P, Clean x) (hM : ∀ x ∈ M, Clean x) (n : Nat) :
    resolve (times (n + 1) "." ++ dotted M) (dotted P)
      = if n < P.length then some (dotted (P.take (P.length - n) ++ M)) else none := by
  have hlevel : ((times (n + 1) "." ++ dotted M).toList.takeWhile (· = '.')).length = n + 1 := by
    rw [String.toList_append, toList_dots, List.takeWhile_append_of_pos (by simp),
      takeWhile_dotted hM]
    simp
  have hrest : drop (times (n + 1) "." ++ dotted M) (n + 1) = dotted M := by
    simp [drop, toList_dots]
  simp only [resolve, hlevel, hrest]
  by_cases hP' : P = []
  · simp [hP', dotted]
  rw [components_dotted hP' hP]
  by_cases hn : n < P.length
  · have htake : P.take (P.length - n) ≠ [] := by
      simp [hP']
      omega
    rw [if_pos hn, if_neg (by omega), if_neg (dotted_ne_empty hP' hP), if_neg (by omega)]
    by_cases hM' : M = []
    · simp [hM', dotted]
    · rw [if_neg (dotted_ne_empty hM' hM)]
      simp [dotted, String.intercalate_append_of_ne_nil htake hM']
  · rw [if_neg hn, if_neg (by omega), if_neg (dotted_ne_empty hP' hP), if_pos (by omega)]

/-! ### The attempts -/

variable {P Q N M : List String} {n L : Nat} {v w : Option Loaded} {package : String}

lemma leaves_attempt (hs : Ready top files root s) (hnew : s.loaded.get? name = none)
    (hresolve : resolve name package = some (dotted full)) (htop : full.head? = some top)
    (hclean : ∀ x ∈ full, Clean x) :
    Leaves top files root s (orNone (attempt name package)) (locate files root full) := by
  have hfull : full ≠ [] := List.ne_nil_of_mem (List.mem_of_mem_head? htop)
  have hname := dotted_ne_empty hfull hclean
  obtain ⟨t, hrun, ht⟩ := leaves_find hs htop hclean
  refine ⟨t, ?_, ht⟩
  simp only [orNone, attempt, run_bind, run_get, hnew, hresolve]
  cases hl : locate files root full with
  | none => simp [hrun, hl]
  | some l => simp [hrun, hl]

/-- What `M` with `n + 1` dots means in the package `P`. -/
def inPackage (files : FileTree) (root : String) (P : List String) (n : Nat) (M : List String) :
    Option Loaded :=
  if n < P.length then locate files root (P.take (P.length - n) ++ M) else none

lemma leaves_attempt_dots (hs : Ready top files root s) (htop : P.head? = some top)
    (hP : ∀ x ∈ P, Clean x) (hM : ∀ x ∈ M, Clean x) (n : Nat) :
    Leaves top files root s (orNone (attempt (times (n + 1) "." ++ dotted M) (dotted P)))
      (inPackage files root P n M) := by
  have hnew : s.loaded.get? (times (n + 1) "." ++ dotted M) = none := by
    rw [dots_succ, String.append_assoc]
    exact hs.undotted _
  have hresolve := resolve_dots hP hM n
  unfold inPackage
  split_ifs at hresolve ⊢ with hn
  · refine leaves_attempt hs hnew hresolve ?_ fun x hx => ?_
    · rw [List.head?_append, List.head?_take, if_neg (by omega), htop]
      rfl
    · exact (List.mem_append.mp hx).elim (fun h => hP x (List.mem_of_mem_take h)) (hM x)
  · exact ⟨s, by simp [orNone, attempt, run_bind, hnew, hresolve], hs⟩

lemma leaves_attempt_full (hs : Ready top files root s) (htop : full.head? = some top)
    (hclean : ∀ x ∈ full, Clean x) :
    ∃ v, Leaves top files root s (orNone (attempt (dotted full) "")) v ∧
      ((∀ l, locate files root full = some l → l.file.isSome) → v = locate files root full) := by
  have hfull : full ≠ [] := List.ne_nil_of_mem (List.mem_of_mem_head? htop)
  cases hloaded : s.loaded.get? (dotted full) with
  | none =>
    have hresolve : resolve (dotted full) "" = some (dotted full) := by
      simp only [resolve, takeWhile_dotted hclean]
      rfl
    exact ⟨_, leaves_attempt hs hloaded hresolve htop hclean, fun _ => rfl⟩
  | some l =>
    rw [hs.loaded full l htop hclean hloaded]
    have hedge := run_createEdge hs (dotted_ne_empty hfull hclean)
    cases hnode : s.graph.contains (dotted full) with
    | true =>
      refine ⟨some l, ⟨?drawn, ?run, ?ready⟩, fun _ => rfl⟩
      case run =>
        simp [orNone, attempt, run_bind, hloaded, hedge, createReverseEdge, adjustNode, hnode,
          hs.named]
        rfl
      case ready => exact hs.draw (by simp)
    | false =>
      refine ⟨none, ⟨?edge, ?run', ?ready'⟩, fun hfile => ?file⟩
      case run' =>
        simp [orNone, attempt, run_bind, hloaded, hedge, createReverseEdge, adjustNode, hnode,
          hs.named]
        rfl
      case ready' => exact hs.draw (by simp)
      case file => simp [hs.drawn _ l hloaded (hfile l rfl)] at hnode

/-! ### What an import means -/

/-- The first attempt that finds something finds `l`. -/
def Hits (root : String) (is : Imports) (names : List (String × String)) (l : Loaded) : Prop :=
  ∃ t, firstFound names is = (.ok (some l), t) ∧ t.dir = root

lemma hits_cons {c : String × String} (h : Leaves top files root s (orNone (attempt c.1 c.2)) v)
    (hl : v.or w = some l)
    (hrest : v = none → w = some l → ∀ t, Ready top files root t → Hits root t rest l) :
    Hits root s (c :: rest) l := by
  obtain ⟨t, hrun, ht⟩ := h
  cases v with
  | some l' =>
    cases hl
    exact ⟨t, by simp [firstFound, run_bind, hrun], ht.dir_eq⟩
  | none =>
    obtain ⟨u, hrun', hu⟩ := hrest rfl hl t ht
    exact ⟨u, by simp [firstFound, run_bind, hrun, hrun'], hu⟩

lemma hits_full (hs : Ready top files root s) (htop : full.head? = some top)
    (hclean : ∀ x ∈ full, Clean x) (hf : l.file.isSome)
    (hl : (locate files root full).or w = some l)
    (hrest : w = some l → ∀ t, Ready top files root t → Hits root t rest l) :
    Hits root s ((dotted full, "") :: rest) l := by
  obtain ⟨v, hleaves, hv⟩ := leaves_attempt_full hs htop hclean
  have hfound : v = locate files root full := by
    refine hv fun _ hl' => ?_
    rw [hl'] at hl
    cases hl
    exact hf
  exact hits_cons hleaves (hfound ▸ hl) fun _ => hrest

/-- What is found for `N` with `L` dots that have led to `P`: the dots are taken to lead out of `P`
once more, and only after that `N` is looked for in `P`. -/
def reached (files : FileTree) (root : String) (P N : List String) (L : Nat) : Option Loaded :=
  (inPackage files root P (L - 1) N).or <|
    (if 2 ≤ N.length then inPackage files root P (L - 1) N.dropLast
      else if 2 ≤ L then inPackage files root P (L - 2) [] else none).or <|
    (locate files root (P ++ N)).or <|
      if 2 ≤ N.length then locate files root (P ++ N.dropLast) else none

lemma hits_candidates (hs : Ready top files root s) (htop : P.head? = some top)
    (hP : ∀ x ∈ P, Clean x) (hN : ∀ x ∈ N, Clean x) (hne : N ≠ []) (hf : l.file.isSome)
    (hreached : reached files root P N (n + 1) = some l) :
    Hits root s (candidates (dotted N) (times (n + 1) "." ++ dotted N) (dotted P)) l := by
  have hP' : P ≠ [] := List.ne_nil_of_mem (List.mem_of_mem_head? htop)
  have hpair (M : List String) (hM : M ≠ []) : dotted [dotted P, dotted M] = dotted (P ++ M) := by
    simp [dotted, String.intercalate_append_of_ne_nil hP' hM]
  have hlast : ∀ x ∈ N.dropLast, Clean x := fun x hx => hN x ((List.dropLast_sublist N).subset hx)
  have hmem (M : List String) (hM : ∀ x ∈ M, Clean x) : ∀ x ∈ P ++ M, Clean x := fun x hx =>
    (List.mem_append.mp hx).elim (hP x) (hM x)
  have hhead (M : List String) : (P ++ M).head? = some top := by
    rw [List.head?_append, htop]
    rfl
  have hpos := List.length_pos_iff.mpr hne
  refine hits_cons (leaves_attempt_dots hs htop hP hN n) hreached fun hfirst hl t ht => ?_
  -- the second name has dots too, unless it is empty; then the first one meant `P ++ N`
  obtain ⟨m, M, hM, hname, hmeans⟩ : ∃ m M, (∀ x ∈ M, Clean x) ∧
      dotted (components (times (n + 1) "." ++ dotted N)).dropLast
        = times (m + 1) "." ++ dotted M ∧
      (if 2 ≤ N.length then inPackage files root P n N.dropLast
        else if 2 ≤ n + 1 then inPackage files root P (n + 1 - 2) [] else none)
        = inPackage files root P m M := by
    rw [components_dots hne hN, List.dropLast_append_of_ne_nil hne]
    split_ifs at hl ⊢ with htwo hdots
    · have hne' : N.dropLast ≠ [] := List.ne_nil_of_length_pos (by simp; omega)
      exact ⟨n, N.dropLast, hlast, dotted_dots _ hne', rfl⟩
    · obtain ⟨m, rfl⟩ : ∃ m, n = m + 1 := ⟨n - 1, by omega⟩
      obtain ⟨x, rfl⟩ : ∃ x, N = [x] := List.length_eq_one_iff.mp (by omega)
      refine ⟨m, [], by simp, ?_, rfl⟩
      have hdots := dotted_dots (m + 1) (List.cons_ne_nil "" [])
      rw [← List.replicate_succ'] at hdots
      simpa [dotted] using hdots
    · obtain rfl : n = 0 := by omega
      simp [inPackage, List.length_pos_iff.mpr hP'] at hfirst
      simp [hfirst] at hl
  rw [Nat.add_sub_cancel, hmeans] at hl
  refine hits_cons (hname ▸ leaves_attempt_dots ht htop hP hM m) hl fun _ hl t ht => ?_
  rw [hpair N hne]
  refine hits_full ht (hhead N) (hmem N hN) hf hl fun hl t ht => ?_
  split_ifs at hl with htwo
  have hne' : N.dropLast ≠ [] := List.ne_nil_of_length_pos (by simp; omega)
  simp only [components_dotted hne hN, hpair _ hne']
  exact hits_full ht (hhead _) (hmem _ hlast) hf (w := none) (by rw [hl]; rfl) nofun

lemma run_atLevel (hcurrent : s.current = dotted (P ++ Q)) (hclean : ∀ x ∈ P ++ Q, Clean x)
    (hP : P ≠ []) (hL : 1 ≤ L) (hQ : Q.length = if s.isInitial then L - 1 else L) (name : String) :
    atLevel name L s = (.ok (times L "." ++ name, dotted P), s) := by
  have hpos := List.length_pos_iff.mpr hP
  have hlength : ¬(P ++ Q).length < L := by
    rw [List.length_append]
    split_ifs at hQ <;> omega
  simp only [atLevel, run_bind, run_get, hcurrent, components_dotted
    (List.append_ne_nil_of_left_ne_nil hP Q) hclean,
    hlength]
  cases hs : s.isInitial with
  | false =>
    obtain rfl : Q.length = L := by simpa [hs] using hQ
    simp [Nat.ne_of_gt hL]
  | true =>
    obtain rfl : L = Q.length + 1 := by
      simp only [hs, if_true] at hQ
      omega
    by_cases hnil : Q = []
    · simp [hnil]
    · simp [hnil]

/-- A relative import of `N` means what is reached from the package `P` that its dots lead to. With
one dot that is `N` in `P`; with more dots, only if nothing is found where the dots lead a second
time. -/
theorem importModule_relative {is : Imports} {name : String} (his : Ready top files root is)
    (hcurrent : is.current = Text.dotted (P ++ Q)) (hPQ : ∀ x ∈ P ++ Q, Clean x)
    (htop : P.head? = some top) (hL : 1 ≤ L) (hQ : Q.length = if is.isInitial then L - 1 else L)
    (hN : ∀ x ∈ N, Clean x) (hname : N.head? = some name)
    (hbuiltin : builtinModules.contains name = false)
    (hf : (reached files root P N L).bind (·.file) = some f) :
    ∃ t, importModule (Text.dotted N) L is = (.ok (some (Path.moduleFound f root)), t) := by
  obtain ⟨n, rfl⟩ : ∃ n, L = n + 1 := ⟨L - 1, by omega⟩
  obtain ⟨l, hl, hf⟩ := Option.bind_eq_some_iff.mp hf
  have hP : P ≠ [] := List.ne_nil_of_mem (List.mem_of_mem_head? htop)
  have hne : N ≠ [] := List.ne_nil_of_mem (List.mem_of_mem_head? hname)
  have hroot : (Text.components (Text.dotted N)).headD "" = name := by
    rw [components_dotted hne hN, List.headD_eq_head?_getD, hname]
    rfl
  have houter : l.isOuter = false := by
    simp only [reached, inPackage, Option.or_eq_some_iff] at hl
    grind [isOuter_of_locate]
  obtain ⟨t, hrun, hdir⟩ := hits_candidates his htop (fun x hx =>
    hPQ x (List.mem_append_left _ hx)) hN
    hne (by rw [hf]; rfl) hl
  refine ⟨t, ?_⟩
  obtain ⟨file, dir, outer⟩ := l
  cases hf
  cases houter
  simp only [importModule, hroot, hbuiltin, orNone, run_bind, run_ite,
    run_atLevel hcurrent hPQ hP hL hQ, hrun]
  simp [hdir]

lemma ready_start {is : Imports} (hloaded : is.loaded = (start is.files is.dir).loaded)
    (hnode : is.graph.contains is.current) (hnamed : is.current ≠ "")
    (hpathless : is.files.isFile "" = false)
    (htop : ∀ m ∈ outerModules, (components m).head? ≠ some top) :
    Ready top is.files is.dir is := by
  have houter {m : String} {l : Loaded} (hl : is.loaded.get? m = some l) :
      m ∈ outerModules ∧ l = { isOuter := true } := by
    rw [hloaded] at hl
    obtain ⟨m', hm', heq⟩ := List.mem_map.mp (Table.mem_entries_of_get? hl)
    cases heq
    exact ⟨hm', rfl⟩
  refine ⟨rfl, rfl, hnode, hnamed, fun _ l hfull hclean hl => ?_, fun m l hl hf => ?_, fun r => ?_,
    hpathless⟩
  · refine absurd ?_ (htop _ (houter hl).1)
    rwa [components_dotted (by rintro rfl; cases hfull) hclean]
  · rw [(houter hl).2] at hf
    cases hf
  · refine Option.eq_none_iff_forall_not_mem.mpr fun l hl => ?_
    have hdot : ∀ m ∈ outerModules, m.toList.head? ≠ some '.' := by decide +kernel
    exact hdot _ (houter hl).1 (by simp)

/-- A package with the modules `a`, `a.b`, `a.b.c` and `a.name`, and the module that is analysed. -/
def nested (current currentFile : String) : Imports :=
  { start { files := Table.ofList (["a/__init__.py", "a/b/__init__.py", "a/b/c.py",
      "a/name.py"].map (·, [])) } ""
    with graph := Table.ofList [(current, {})], current, currentFile }

/-- In the initial file of `a.b`, one dot leads to `a.b.c`. -/
theorem importModule_relative_nested :
    Ready "a" (nested "a.b" "a/b/__init__.py").files "" (nested "a.b" "a/b/__init__.py") ∧
      ∃ t, importModule "c" 1 (nested "a.b" "a/b/__init__.py") = (.ok (some "a.b.c"), t) := by
  have hready : Ready "a" (nested "a.b" "a/b/__init__.py").files ""
      (nested "a.b" "a/b/__init__.py") :=
    ready_start rfl (by decide +kernel) (by decide) (by decide +kernel) (by decide +kernel)
  have hmeans := importModule_relative (P := ["a", "b"]) (Q := []) (N := ["c"]) (L := 1) hready
    (by decide +kernel) (by decide +kernel) rfl (by decide) (by decide +kernel)
    (by decide +kernel) rfl
    (by decide +kernel) (f := "a/b/c.py") (by decide +kernel)
  have hfound : Path.moduleFound "a/b/c.py" "" = "a.b.c" := by decide +kernel
  rw [hfound] at hmeans
  exact ⟨hready, hmeans⟩

/-- In `a.b.c`, two dots lead to `a`, where `a.name` is. But the import means `a`. -/
theorem two_dots_miss_module :
    (locate (nested "a.b.c" "a/b/c.py").files "" ["a", "name"]).bind (·.file) = some "a/name.py" ∧
      ∃ t, importModule "name" 2 (nested "a.b.c" "a/b/c.py") = (.ok (some "a"), t) := by
  have hrun : (importModule "name" 2 (nested "a.b.c" "a/b/c.py")).1.toOption = some (some "a") := by
    decide +kernel
  exact ⟨by decide +kernel, _, eq_of_toOption hrun⟩

end Imports

end SinkTrace
