import SinkTrace.Import.Search
import SinkTrace.Proofs.Act
import SinkTrace.Proofs.Data.Table

/-!
# What the search for a module changes

A module keeps the file that it has been found in, and every module that is loaded has a file of the
tree. So a search gives the name of one of the files.
-/

namespace SinkTrace

open Table

namespace Imports

open Act

variable {s t : Imports} {l : Loaded} {dest m name : String} {f : ImportNode → ImportNode}
  {level : Nat}
  {names : List (String × String)}

lemma reads_atLevel (name : String) (level : Nat) : Reads (atLevel name level) := by
  refine Leads.get.bind fun _ => ?_
  exact .or_pure Leads.throw.bind_pure

lemma reads_importFromGraph : Reads (importFromGraph name level) := by
  refine .pure_or ((reads_atLevel name level).orNone.bind fun found => ?_)
  cases found with
  | none => exact .pure
  | some _ => exact Leads.get.bind_pure

/-! ### Files of modules -/

def IsFound (files : FileTree) (l : Loaded) : Prop := ∀ f, l.file = some f → files.isFile f = true

def LoadsFiles (is : Imports) : Prop := ∀ e ∈ is.loaded.entries, IsFound is.files e.2

/-- The modules of `is` keep their files in `is'`, and only files of the tree have been loaded. -/
structure Extends (is is' : Imports) : Prop where
  files : is'.files = is.files
  dir : is'.dir = is.dir
  fileOf : ∀ m, is.fileOf m ≠ "" → is'.fileOf m = is.fileOf m
  loaded : is.LoadsFiles → is'.LoadsFiles

variable {is is' is'' : Imports}

lemma Extends.refl (is : Imports) : Extends is is := ⟨rfl, rfl, fun _ _ => rfl, id⟩

lemma Extends.trans (h : Extends is is') (h' : Extends is' is'') : Extends is is'' where
  files := h'.files.trans h.files
  dir := h'.dir.trans h.dir
  fileOf m hm := (h'.fileOf m (by rwa [h.fileOf m hm])).trans (h.fileOf m hm)
  loaded hl := h'.loaded (h.loaded hl)

lemma extends_setCurrent (is : Imports) (name file : String) :
    Extends is (is.setCurrent name file) :=
  { Extends.refl is with }

lemma fileOf_adjustNode (hf : ∀ n, (f n).filename = n.filename) :
    (is.adjustNode name f).fileOf m = is.fileOf m := by
  unfold fileOf node? adjustNode
  rw [get?_modify]
  split_ifs
  · cases is.graph.get? m with
    | none => rfl
    | some n => exact hf n
  · rfl

lemma extends_adjustNode (hf : ∀ n, (f n).filename = n.filename) :
    Extends is (is.adjustNode name f) :=
  { Extends.refl is with fileOf := fun _ _ => fileOf_adjustNode hf }

lemma extends_unload (is : Imports) : Extends is is.unload :=
  { Extends.refl is with loaded := fun hl e he => hl e (List.mem_filter.mp he).1 }

lemma extends_load (hl : IsFound is.files l) :
    Extends is { is with loaded := is.loaded.set name l } := by
  refine { Extends.refl is with loaded := fun h e he => ?_ }
  rcases mem_entries_set he with rfl | he
  · exact hl
  · exact h e he

lemma extends_createEdge : Leads Extends (createEdge dest) := by
  refine .when .throw (Leads.get.bind fun is => .when .throw ?_)
  refine .modify fun _ => .single (extends_adjustNode ?_)
  exact fun _ => rfl

lemma extends_createReverseEdge : Leads Extends (createReverseEdge name) := by
  refine Leads.get.bind fun is => .when .throw (.when .throw ?_)
  refine .modify fun _ => .single (extends_adjustNode ?_)
  exact fun _ => rfl

lemma extends_createSinkEdge {part : String} : Leads Extends (createSinkEdge part dest) := by
  refine .when .throw (Leads.get.bind fun is => .when .throw ?_)
  refine .modify fun _ => .single (extends_adjustNode ?_)
  exact fun _ => rfl

/-- At most the node of one module is another one. -/
structure Touches (name : String) (is is' : Imports) : Prop where
  files : is'.files = is.files
  dir : is'.dir = is.dir
  loaded : is'.loaded = is.loaded
  fileOf : ∀ m, m ≠ name → is'.fileOf m = is.fileOf m

lemma touches_createNode : Leads (Touches name) (createNode name) := by
  refine .when .throw (Leads.get.bind fun is => .when .throw ?_)
  refine .modify fun _ => .single ⟨rfl, rfl, rfl, fun m hm => ?_⟩
  unfold Imports.fileOf node?
  rw [get?_set, if_neg hm]

lemma touches_setFilename {file : Option String} :
    Leads (Touches name) (setFilename name file) := by
  unfold setFilename
  split
  · exact .throw
  · exact .throw
  · refine Leads.get.bind fun is => .when .throw ?_
    refine .modify fun _ => .single ⟨rfl, rfl, rfl, fun m hm => ?_⟩
    unfold Imports.fileOf node? adjustNode
    rw [get?_modify, if_neg hm]

lemma extends_addNode (file : String) (h : is.graph.contains name = false) :
    Extends is (addNode name file is).2 := by
  have hadd : Leads (Touches name) (addNode name file) :=
    touches_createNode.bind fun _ => touches_setFilename
  have htouches : Touches name is (addNode name file is).2 :=
    hadd.run (fun _ => ⟨rfl, rfl, rfl, fun _ _ => rfl⟩) (fun _ _ _ h h' => ⟨h'.files.trans h.files,
      h'.dir.trans h.dir, h'.loaded.trans h.loaded,
      fun m hm => (h'.fileOf m hm).trans (h.fileOf m hm)⟩) is
  refine ⟨htouches.files, htouches.dir, fun m hm => htouches.fileOf m ?_, fun _ => ?_⟩
  · rintro rfl
    unfold Imports.fileOf node? at hm
    rw [not_contains_iff.mp h] at hm
    exact hm rfl
  · unfold LoadsFiles
    rwa [htouches.loaded, htouches.files]

lemma extends_unlessKnown {a : Act Imports Unit}
    (ha : ∀ is, is.graph.contains name = false → Relation.ReflTransGen Extends is (a is).2) :
    Leads Extends (get >>= fun is => if is.graph.contains name then pure () else a) := by
  refine .get_bind fun is => ?_
  rw [run_ite]
  split_ifs with hname
  · exact .refl
  · exact ha is (Bool.eq_false_iff.mpr hname)

lemma extends_noteFound {file : String} : Leads Extends (noteFound name file) := by
  refine extends_createEdge.bind fun _ => extends_unlessKnown fun is hname => ?_
  have hadd := extends_addNode file hname
  rw [run_bind]
  rcases hrun : addNode name file is with ⟨_ | _, is'⟩
  · rw [hrun] at hadd
    exact .single hadd
  · rw [hrun] at hadd
    exact .head hadd (extends_createReverseEdge is')

/-! ### The search -/

/-- What is found has a file of the tree, as what is loaded then does. -/
def Finds (a : Act Imports (Option Loaded)) : Prop :=
  ∀ s v t, a s = (.ok v, t) → t.LoadsFiles → ∀ l, v = some l → IsFound t.files l

lemma isFound_lookIn {files : FileTree} {dir : String} (h : lookIn files dir name = some l) :
    IsFound files l := by
  unfold lookIn at h
  dsimp only at h
  split at h
  · rename_i hf
    cases h
    rintro _ ⟨⟩
    exact List.find?_some hf
  · rename_i hf
    cases h
    rintro _ ⟨⟩
    exact List.find?_some hf
  · split_ifs at h
    cases h
    exact nofun

lemma extends_findIn (dir name : String) : Leads Extends (findIn dir name) := by
  refine Leads.get.bind fun _ => ?_
  extract_lets found
  split
  · exact extends_noteFound.bind_pure
  · exact .pure

lemma finds_findIn {dir : String} : Finds (findIn dir name) := by
  intro s v t hrun _ l hl
  have hsteps := (extends_findIn dir name).run .refl (fun _ _ _ => .trans) s
  rw [hrun] at hsteps
  have hv : v = lookIn s.files dir name := by
    obtain ⟨is, s', hget, hrun⟩ := of_bind hrun
    cases hget
    dsimp only at hrun
    cases hfile : (lookIn s.files dir name).bind (·.file) with
    | some f =>
      rw [hfile] at hrun
      obtain ⟨_, _, -, hrun⟩ := of_bind hrun
      cases hrun
      rfl
    | none =>
      rw [hfile] at hrun
      cases hrun
      rfl
  rw [hsteps.files]
  exact isFound_lookIn (hv.symm.trans hl)

lemma extends_loadFrom {dir : String} : Leads Extends (loadFrom dir name) := by
  refine Leads.get.bind fun _ => ?_
  split
  · exact .pure
  · refine (extends_findIn dir name).bind_from (fun s v t hrun l hl ht =>
      finds_findIn s v t hrun ht l hl)
      fun found t hfound => ?_
    cases found with
    | none => exact .refl
    | some l =>
      refine .single ⟨rfl, rfl, fun _ _ => rfl, fun ht => ?_⟩
      exact (extends_load (hfound l rfl ht)).loaded ht

lemma extends_loadPath (dir : String) (done : List String) {parts : List String} :
    Leads Extends (load dir done parts) := by
  induction parts generalizing dir done with
  | nil => exact .pure
  | cons part rest ih =>
    refine extends_loadFrom.bind fun _ => ?_
    split
    · exact .pure
    · exact .pure
    · split
      · exact ih _ _
      · exact .pure

lemma extends_find : Leads Extends (find name) := by
  refine Leads.get.bind fun _ => ?_
  split
  · exact .pure
  · split
    · exact extends_findIn _ _
    · refine (extends_loadPath _ _).bind fun _ => ?_
      split
      · exact extends_findIn _ _
      · exact .pure

lemma finds_find : Finds (find name) := by
  intro s v t hrun ht l hl
  obtain ⟨is, s', hget, hrun⟩ := of_bind hrun
  cases hget
  cases hname : s.loaded.get? name with
  | some l' =>
    rw [hname] at hrun
    cases hrun
    cases hl
    exact ht _ (mem_entries_of_get? hname)
  | none =>
    rw [hname] at hrun
    cases hcut : Text.cutLast? name "." with
    | none =>
      rw [hcut] at hrun
      exact finds_findIn s v t hrun ht l hl
    | some package =>
      rw [hcut] at hrun
      obtain ⟨found, t', -, hrun⟩ := of_bind hrun
      match found with
      | some { dir := some d, .. } => exact finds_findIn t' v t hrun ht l hl
      | some { dir := none, .. } | none =>
        cases hrun
        cases hl

lemma extends_attempt (name package : String) : Leads Extends (attempt name package) := by
  refine Leads.get.bind fun _ => ?_
  split
  · exact extends_createEdge.bind fun _ => extends_createReverseEdge.bind_pure
  · split
    · exact .throw
    · exact .throw
    · refine extends_find.bind fun _ => ?_
      split
      · exact .pure
      · exact .throw

lemma finds_attempt {package : String} (hrun : attempt name package s = (.ok l, t))
    (hs : s.LoadsFiles) :
    IsFound t.files l := by
  have hsteps := (extends_attempt name package).run .refl (fun _ _ _ => .trans) s
  rw [hrun] at hsteps
  obtain ⟨is, s', hget, hrun⟩ := of_bind hrun
  cases hget
  cases hname : s.loaded.get? name with
  | some l' =>
    rw [hname] at hrun
    obtain ⟨_, _, -, hrun⟩ := of_bind hrun
    obtain ⟨_, _, -, hrun⟩ := of_bind hrun
    cases hrun
    rw [hsteps.files]
    exact hs _ (mem_entries_of_get? hname)
  | none =>
    rw [hname] at hrun
    dsimp only at hrun
    generalize resolve name package = full at hrun
    split at hrun
    · cases hrun
    · cases hrun
    · obtain ⟨found, t', hfind, hrun⟩ := of_bind hrun
      split at hrun
      · cases hrun
        exact finds_find s _ t hfind (hsteps.loaded hs) l rfl
      · cases hrun

lemma extends_firstFound : Leads Extends (firstFound names) := by
  induction names with
  | nil => exact .pure
  | cons n rest ih =>
    refine (extends_attempt n.1 n.2).orNone.bind fun _ => ?_
    split
    · exact .pure
    · exact ih

lemma extends_importModule (name : String) (level : Nat) :
    Leads Extends (importModule name level) := by
  refine .ite extends_createEdge.bind_pure ?_
  refine (reads_atLevel name level).leads.orNone.bind fun found => ?_
  split
  · exact .pure
  · refine extends_firstFound.bind fun _ => ?_
    split
    · exact Leads.get.bind_pure
    · exact .pure

lemma finds_firstFound (hrun : firstFound names s = (.ok (some l), t)) (hs : s.LoadsFiles) :
    IsFound t.files l := by
  induction names generalizing s with
  | nil => cases hrun
  | cons n rest ih =>
    obtain ⟨found, s', htry, hrun⟩ := of_bind hrun
    have hsteps := (extends_attempt n.1 n.2).orNone.run .refl (fun _ _ _ => .trans) s
    rw [htry] at hsteps
    cases found with
    | none => exact ih hrun (hsteps.loaded hs)
    | some l' =>
      cases hrun
      exact finds_attempt (run_of_orNone htry) hs

lemma moduleFound_of_importModule (hrun : importModule name level s = (.ok (some m), t))
    (hs : s.LoadsFiles) : ∃ f, s.files.isFile f ∧ m = Path.moduleFound f s.dir := by
  have hsteps := (extends_importModule name level).run .refl (fun _ _ _ => .trans) s
  rw [hrun] at hsteps
  rw [← hsteps.files, ← hsteps.dir]
  unfold importModule at hrun
  rw [run_ite] at hrun
  split_ifs at hrun
  · obtain ⟨_, _, -, hrun⟩ := of_bind hrun
    cases hrun
  · obtain ⟨found, s₁, hlevel, hrest⟩ := of_bind hrun
    cases found with
    | none => cases hrest
    | some place =>
      have hsame : s₁ = s := by
        have h := (reads_atLevel name level).state_eq s
        rwa [run_of_orNone hlevel] at h
      obtain ⟨found, s₂, hfirst, hrest⟩ := of_bind hrest
      match found with
      | some { file := some f, isOuter := false, .. } =>
        cases hrest
        exact ⟨f, finds_firstFound hfirst (hsame ▸ hs) f rfl, rfl⟩
      | some { file := some f, isOuter := true, .. } | some { file := none, .. } | none =>
          cases hrest

end Imports

end SinkTrace
