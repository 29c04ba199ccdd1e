import SinkTrace.Proofs.Module
import SinkTrace.Report.Exchange

/-!
# Numbers of methods in an exchange document

A document numbers the methods that the modules of the package list. A class is found in it by two
names: that of its module and its own. If different methods are written differently, a class is
found exactly if its module lists it, so a document can be made only if all classes are listed.
-/

namespace SinkTrace

open Table List

namespace Exchange

variable {c : ClassInfo} {functions : List String} {info : ModuleInfo} {p : String × String}

/-! ### Computations that may stop -/

section Steps

variable {α β γ : Type} {e : Fault} {a : Except Fault α}

lemma of_bind {f : α → Except Fault β} {w : β} (h : a >>= f = .ok w) :
    ∃ v, a = .ok v ∧ f v = .ok w := by
  cases a with
  | error e => cases h
  | ok v => exact ⟨v, rfl, h⟩

lemma bind_error {f : α → Except Fault β} (h : a >>= f = .error e) :
    a = .error e ∨ ∃ v, a = .ok v ∧ f v = .error e := by
  cases a with
  | error e' =>
    cases h
    exact .inl rfl
  | ok v => exact .inr ⟨v, rfl, h⟩

variable {f : β → α → Except Fault β} {as : List α} {P : β → Prop}

lemma exists_of_foldlM (hP : ∀ b, P b → ∀ a ∈ as, ∀ c, f b a = .ok c → P c) {b c : β} (hb : P b)
    (h : as.foldlM f b = .ok c) {a : α} (ha : a ∈ as) : ∃ b' c', P b' ∧ f b' a = .ok c' := by
  induction as generalizing b with
  | nil => cases ha
  | cons a' as ih =>
    rw [foldlM_cons] at h
    obtain ⟨d, hd, hrest⟩ := of_bind h
    rcases mem_cons.mp ha with rfl | ha
    · exact ⟨b, d, hb, hd⟩
    · refine ih (fun b hb a ha => hP b hb a (mem_cons_of_mem _ ha)) ?_ hrest ha
      exact hP b hb a' mem_cons_self d hd

lemma exists_of_foldlM_error (hP : ∀ b, P b → ∀ a ∈ as, ∀ c, f b a = .ok c → P c) {b : β} (hb : P b)
    (h : as.foldlM f b = .error e) : ∃ a ∈ as, ∃ b', P b' ∧ f b' a = .error e := by
  induction as generalizing b with
  | nil => cases h
  | cons a as ih =>
    rw [foldlM_cons] at h
    rcases bind_error h with h | ⟨c, hc, h⟩
    · exact ⟨a, mem_cons_self, b, hb, h⟩
    · obtain ⟨a', ha', hstop⟩ := ih (fun b hb a ha => hP b hb a (mem_cons_of_mem _ ha))
        (hP b hb a mem_cons_self c hc) h
      exact ⟨a', mem_cons_of_mem _ ha', hstop⟩

/-- The computation looks for nothing that is not there. -/
def NoMiss (a : Except Fault α) : Prop := a ≠ .error .missing

lemma noMiss_ok {v : α} : NoMiss (.ok v) := nofun

lemma NoMiss.bind {f : α → Except Fault β} (ha : NoMiss a) (hf : ∀ v, NoMiss (f v)) :
    NoMiss (a >>= f) := by
  intro h
  rcases bind_error h with h | ⟨v, -, h⟩
  · exact ha h
  · exact hf v h

lemma noMiss_foldlM (hf : ∀ b a, NoMiss (f b a)) {b : β} : NoMiss (as.foldlM f b) := by
  intro h
  obtain ⟨a, -, b', -, hstop⟩ :=
    exists_of_foldlM_error (fun _ _ _ _ _ _ => trivial) trivial h
  exact hf b' a hstop

lemma noMiss_mapM {f : α → Except Fault β} (hf : ∀ a, NoMiss (f a)) : NoMiss (as.mapM f) := by
  induction as with
  | nil => exact noMiss_ok
  | cons a as ih =>
    rw [mapM_cons]
    exact (hf a).bind fun b => ih.bind fun _ => noMiss_ok

end Steps

/-! ### Names in the document -/

def methodsOf (entries : List (String × ModuleInfo)) : List (String × String) :=
  entries.flatMap fun e => e.2.methods.keys.map fun x => (e.1, x)

lemma mem_methodsOf {entries : List (String × ModuleInfo)} :
    p ∈ methodsOf entries ↔ ∃ info, (p.1, info) ∈ entries ∧ p.2 ∈ info.methods.keys := by
  obtain ⟨m, x⟩ := p
  simp [methodsOf]

namespace Source

def methods (s : Source) : List (String × String) := methodsOf s.modules.inner.entries

def uri (s : Source) (method : String × String) : Except Fault String :=
  uriOf s.functions method.1 method.2

/-- Different modules and methods are written differently, and a class like no other method. -/
structure Separate (s : Source) : Prop where
  modules : (s.modules.inner.keys.map moduleText).Nodup
  methods : (s.methods.map s.uri).Nodup
  classes : ∀ e ∈ s.classes.entries, ∀ p ∈ s.methods, s.uri p = s.uri (e.2.module, e.1) →
    p = (e.2.module, e.1)

instance (s : Source) : Decidable s.Separate :=
  decidable_of_iff ((s.modules.inner.keys.map moduleText).Nodup ∧ (s.methods.map s.uri).Nodup ∧
      ∀ e ∈ s.classes.entries, ∀ p ∈ s.methods, s.uri p = s.uri (e.2.module, e.1) →
        p = (e.2.module, e.1))
    ⟨fun h => ⟨h.1, h.2.1, h.2.2⟩, fun h => ⟨h.modules, h.methods, h.classes⟩⟩

end Source

variable {s : Source} {d d' : Document} {module name : String}

def keyOf (functions : List String) (module : String) : String :=
  "/" ++ moduleText module ++ "/" ++ "" ++ if functions.contains "" then "()" else ""

lemma uriOf_empty : uriOf functions module "" = .ok (keyOf functions module) := rfl

lemma noMiss_uriOf : NoMiss (uriOf functions module name) := by
  unfold uriOf
  extract_lets written
  split_ifs
  · exact noMiss_ok
  · cases Text.afterPrefix? (module ++ ".").toList name.toList with
    | none => nofun
    | some rest => exact noMiss_ok

lemma keyOf_ne {m n : String} (h : moduleText m ≠ moduleText n) :
    keyOf functions m ≠ keyOf functions n := by
  unfold keyOf
  simpa [String.append_assoc] using h

/-- A method has a number, and the module it is of has a node with that number. -/
def Document.Finds (s : Source) (d : Document) (method : String × String) : Prop :=
  ∃ uri nodes number, s.uri method = .ok uri ∧
    d.inner.get? (keyOf s.functions method.1) = some nodes ∧ d.numbers.get? uri = some number ∧
      nodes.nodes.contains number = true

/-! ### Methods -/

/-- What numbering the methods `names` of a module does to a document and the nodes of the
module. -/
structure Numbers (s : Source) (module : String) (names : List String)
    (start out : Document × ModuleNodes) : Prop where
  inner : out.1.inner = start.1.inner
  others : ∀ uri, (∀ x ∈ names, s.uri (module, x) ≠ .ok uri) →
    out.1.numbers.get? uri = start.1.numbers.get? uri
  nodes : ∀ i, start.2.nodes.contains i = true → out.2.nodes.contains i = true
  found : ∀ x ∈ names, ∃ uri number, s.uri (module, x) = .ok uri ∧
    out.1.numbers.get? uri = some number ∧ out.2.nodes.contains number = true

lemma numbers_of_foldlM {entries : List (String × Span)} {start out : Document × ModuleNodes}
    (hsame : (entries.map fun e => s.uri (module, e.1)).Nodup)
    (h : entries.foldlM (addMethod s module) start = .ok out) :
    Numbers s module (entries.map (·.1)) start out := by
  induction entries generalizing start with
  | nil =>
    cases h
    exact ⟨rfl, fun _ _ => rfl, fun _ hi => hi, nofun⟩
  | cons e entries ih =>
    obtain ⟨method, span⟩ := e
    obtain ⟨d, nodes⟩ := start
    rw [foldlM_cons] at h
    obtain ⟨mid, hmid, hrest⟩ := of_bind h
    obtain ⟨uri, huri, hmid⟩ := of_bind hmid
    cases hmid
    obtain ⟨hnew, hsame⟩ := nodup_cons.mp hsame
    have hnumbers := ih hsame hrest
    have hfresh : ∀ x ∈ entries.map (·.1), s.uri (module, x) ≠ .ok uri := by
      intro x hx heq
      obtain ⟨e, he, rfl⟩ := mem_map.mp hx
      exact hnew (mem_map.mpr ⟨e, he, heq.trans huri.symm⟩)
    refine ⟨hnumbers.inner, fun u hu => ?_, fun i hi => hnumbers.nodes i ?_, fun x hx => ?_⟩
    · obtain ⟨hfirst, hothers⟩ := forall_mem_cons.mp hu
      rw [hnumbers.others u hothers]
      refine get?_set_of_ne ?_ _
      rintro rfl
      exact hfirst huri
    · exact contains_set.mpr (.inr hi)
    · rcases mem_cons.mp hx with rfl | hx
      · refine ⟨uri, d.next, huri, ?_, hnumbers.nodes _ (contains_set.mpr (.inl rfl))⟩
        rw [hnumbers.others uri hfresh]
        exact get?_set_self
      · exact hnumbers.found x hx

/-! ### Modules -/

/-- What numbering the methods of modules does to a document. -/
structure Lists (s : Source) (entries : List (String × ModuleInfo)) (d d' : Document) : Prop where
  inner : ∀ module, moduleText module ∉ entries.map (moduleText ·.1) →
    d'.inner.get? (keyOf s.functions module) = d.inner.get? (keyOf s.functions module)
  numbers : ∀ uri, .ok uri ∉ (methodsOf entries).map s.uri →
  d'.numbers.get? uri = d.numbers.get? uri
  found : ∀ p ∈ methodsOf entries, d'.Finds s p

lemma lists_addInner (hsame : ((methodsOf [(module, info)]).map s.uri).Nodup)
    (h : addInner s d module info = .ok d') : Lists s [(module, info)] d d' := by
  obtain ⟨key, hkey, h⟩ := of_bind h
  obtain ⟨⟨d₁, nodes⟩, hmethods, h⟩ := of_bind h
  rw [uriOf_empty] at hkey
  cases hkey
  cases h
  have hnumbers := numbers_of_foldlM (by simpa [methodsOf, Table.keys, Function.comp_def]
    using hsame)
    hmethods
  refine ⟨fun m hm => ?_, fun uri huri => ?_, fun p hp => ?_⟩
  · rw [← hnumbers.inner]
    exact get?_set_of_ne (keyOf_ne fun h => hm (by simp [h])) _
  · refine hnumbers.others uri fun x hx heq => huri (mem_map.mpr ⟨(module, x), ?_, heq⟩)
    exact mem_methodsOf.mpr ⟨info, mem_singleton_self _, hx⟩
  · obtain ⟨m, x⟩ := p
    obtain ⟨info', hmem, hx⟩ := mem_methodsOf.mp hp
    cases mem_singleton.mp hmem
    obtain ⟨uri, number, huri, hnumber, hnode⟩ := hnumbers.found x hx
    exact ⟨uri, nodes, number, huri, get?_set_self, hnumber, hnode⟩

lemma lists_foldlM {entries : List (String × ModuleInfo)}
    (hmodules : (entries.map (moduleText ·.1)).Nodup)
    (hmethods : ((methodsOf entries).map s.uri).Nodup)
    (h : entries.foldlM (fun d (name, m) => addInner s d name m) d = .ok d') :
    Lists s entries d d' := by
  induction entries generalizing d with
  | nil =>
    cases h
    exact ⟨fun _ _ => rfl, fun _ _ => rfl, nofun⟩
  | cons e entries ih =>
    obtain ⟨module, info⟩ := e
    rw [foldlM_cons] at h
    obtain ⟨mid, hmid, hrest⟩ := of_bind h
    have hsplit : methodsOf ((module, info) :: entries)
        = methodsOf [(module, info)] ++ methodsOf entries := by simp [methodsOf]
    rw [hsplit, map_append] at hmethods
    obtain ⟨hfirst, hothers, hapart⟩ := nodup_append.mp hmethods
    obtain ⟨hnew, hmodules⟩ := nodup_cons.mp hmodules
    have hmid := lists_addInner hfirst hmid
    have hrest := ih hmodules hothers hrest
    refine ⟨fun m hm => ?_, fun uri huri => ?_, fun p hp => ?_⟩
    · obtain ⟨hne, hm⟩ := not_or.mp (mt mem_cons.mpr hm)
      exact (hrest.inner m hm).trans (hmid.inner m (by simpa using hne))
    · rw [hsplit, map_append, mem_append, not_or] at huri
      exact (hrest.numbers uri huri.2).trans (hmid.numbers uri huri.1)
    · rcases mem_append.mp (hsplit ▸ hp) with hp | hp
      · -- what follows leaves the module and the numbers of its methods alone
        obtain ⟨uri, nodes, number, huri, hnodes, hnumber, hnode⟩ := hmid.found p hp
        obtain ⟨info', hinfo, -⟩ := mem_methodsOf.mp hp
        cases mem_singleton.mp hinfo
        refine ⟨uri, nodes, number, huri, (hrest.inner _ hnew).trans hnodes, ?_, hnode⟩
        rw [hrest.numbers uri fun hmem => ?_]
        · exact hnumber
        · exact hapart _ (mem_map_of_mem hp) _ hmem huri
      · exact hrest.found p hp

lemma Source.Separate.finds_iff (hs : s.Separate)
    (h : s.modules.inner.entries.foldlM (fun d (name, m) => addInner s d name m) {} = .ok d)
    (hp : ∀ q ∈ s.methods, s.uri q = s.uri p → q = p) : d.Finds s p ↔ p ∈ s.methods := by
  have hlists := lists_foldlM (by simpa [Table.keys, Function.comp_def]
    using hs.modules) hs.methods h
  constructor
  · rintro ⟨uri, nodes, number, huri, -, hnumber, -⟩
    by_contra hmem
    rw [hlists.numbers uri fun hwritten => ?_] at hnumber
    · cases hnumber
    · obtain ⟨q, hq, hwritten⟩ := mem_map.mp hwritten
      exact hmem (hp q hq (hwritten.trans huri.symm) ▸ hq)
  · exact hlists.found p

/-! ### Classes -/

lemma finds_set {key : String} {nodes nodes' : ModuleNodes} (hnodes : d.inner.get? key = some nodes)
    (hsame : ∀ i, nodes'.nodes.contains i = nodes.nodes.contains i) (p : String × String) :
    Document.Finds s { d with inner := d.inner.set key nodes' } p ↔ d.Finds s p := by
  by_cases hp : keyOf s.functions p.1 = key
  · simp [Document.Finds, hp, hnodes, hsame]
  · simp [Document.Finds, get?_set_of_ne hp]

lemma addSuperClasses_ok (h : addSuperClasses s d name c = .ok d') :
    d.Finds s (c.module, name) ∧ ∀ p, d'.Finds s p ↔ d.Finds s p := by
  obtain ⟨uri, huri, h⟩ := of_bind h
  obtain ⟨key, hkey, h⟩ := of_bind h
  rw [uriOf_empty] at hkey
  cases hkey
  split at h
  · next nodes number hnodes hnumber =>
    split_ifs at h with hnode
    · cases h
    · obtain ⟨supers, -, h⟩ := of_bind h
      cases h
      refine ⟨⟨uri, nodes, number, huri, hnodes, hnumber, by simpa using hnode⟩, ?_⟩
      exact finds_set hnodes fun i => contains_modify ..
  · cases h

lemma noMiss_ancestorUri (ancestor : String) : NoMiss (ancestorUri s ancestor) := by
  unfold ancestorUri
  cases s.classes.get? ancestor with
  | none => exact noMiss_ok
  | some c => exact noMiss_uriOf

lemma not_finds_of_missing (h : addSuperClasses s d name c = .error .missing) :
    ¬ d.Finds s (c.module, name) := by
  rintro ⟨uri, nodes, number, huri, hnodes, hnumber, hnode⟩
  change uriOf s.functions c.module name = .ok uri at huri
  rcases bind_error h with h | ⟨uri', huri', h⟩
  · exact noMiss_uriOf h
  cases huri.symm.trans huri'
  rcases bind_error h with h | ⟨key, hkey, h⟩
  · exact noMiss_uriOf h
  cases uriOf_empty.symm.trans hkey
  simp only [hnodes, hnumber, hnode, Bool.not_true, Bool.false_eq_true, if_false] at h
  exact (noMiss_mapM noMiss_ancestorUri).bind (fun _ => noMiss_ok) h

lemma finds_addSuperClasses (d₀ : Document) (classes : List (String × ClassInfo)) :
    ∀ d : Document, (∀ p, d.Finds s p ↔ d₀.Finds s p) → ∀ e ∈ classes, ∀ d',
      addSuperClasses s d e.1 e.2 = .ok d' → ∀ p, d'.Finds s p ↔ d₀.Finds s p :=
  fun _ hd _ _ _ hadd p => ((addSuperClasses_ok hadd).2 p).trans (hd p)

/-! ### Documents -/

lemma Source.Separate.found_iff (hs : s.Separate)
    (h : s.modules.inner.entries.foldlM (fun d (name, m) => addInner s d name m) {} = .ok d)
    {e : String × ClassInfo} (he : e ∈ s.classes.entries) :
    d.Finds s (e.2.module, e.1) ↔ (e.2.module, e.1) ∈ s.methods := hs.finds_iff h (hs.classes e he)

lemma listed_of_nodes (hs : s.Separate) (h : nodes s = .ok d) {e : String × ClassInfo}
    (he : e ∈ s.classes.entries) : (e.2.module, e.1) ∈ s.methods := by
  obtain ⟨d₀, hmodules, h⟩ := of_bind h
  obtain ⟨d₁, hclasses, -⟩ := of_bind h
  obtain ⟨b, c, hb, hadd⟩ := exists_of_foldlM (finds_addSuperClasses d₀ _)
    (fun _ => .rfl) hclasses he
  exact (hs.found_iff hmodules he).mp ((hb _).mp (addSuperClasses_ok hadd).1)

lemma noMiss_addInner : NoMiss (addInner s d module info) := by
  refine noMiss_uriOf.bind fun _ => NoMiss.bind ?_ fun _ => noMiss_ok
  exact noMiss_foldlM (fun _ _ => noMiss_uriOf.bind fun _ => noMiss_ok)

lemma unlisted_of_nodes (hs : s.Separate) (h : nodes s = .error .missing) :
    ∃ e ∈ s.classes.entries, (e.2.module, e.1) ∉ s.methods := by
  rcases bind_error h with h | ⟨d₀, hmodules, h⟩
  · refine (noMiss_foldlM (fun d e => ?_) h).elim
    exact noMiss_addInner
  rcases bind_error h with h | ⟨d₁, -, h⟩
  · obtain ⟨e, he, b, hb, hadd⟩ := exists_of_foldlM_error (finds_addSuperClasses d₀ _)
      (fun _ => .rfl) h
    exact ⟨e, he, fun hlisted => not_finds_of_missing hadd
      ((hb _).mpr ((hs.found_iff hmodules he).mpr hlisted))⟩
  · cases h

lemma noMiss_endText {node : String} : NoMiss (endText s d node) := by
  unfold endText
  split
  · exact noMiss_uriOf.bind fun _ => noMiss_ok
  · exact noMiss_ok
  · exact noMiss_ok

lemma noMiss_calls : NoMiss (calls s d) := by
  refine noMiss_foldlM (fun _ e => ?_)
  refine noMiss_endText.bind fun a => noMiss_endText.bind fun b => ?_
  split
  · split_ifs
    · exact noMiss_ok
    · exact noMiss_ok
  · exact noMiss_ok

lemma Source.Separate.mem_methods_iff (hs : s.Separate) {m x : String} :
    (m, x) ∈ s.methods ↔ s.modules.Lists m x := by
  have hnodup : s.modules.inner.keys.Nodup :=
    Pairwise.of_map _ (fun _ _ hne heq => hne (congrArg moduleText heq)) hs.modules
  rw [Source.methods, mem_methodsOf]
  refine exists_congr fun _ => and_congr ⟨get?_of_mem_entries hnodup, fun h => ?_⟩
    mem_keys_iff
  exact mem_entries_of_get? h

/-- A document that can be made shows all classes; else it misses one that its module does not
list. -/
lemma value_listed (hs : s.Separate) (release : Release) :
    (∀ v, value release s = .ok v → ∀ e ∈ s.classes.entries, s.modules.Lists e.2.module e.1) ∧
      (value release s = .error .missing →
        ∃ e ∈ s.classes.entries, ¬ s.modules.Lists e.2.module e.1) := by
  simp only [← hs.mem_methods_iff]
  constructor
  · intro v h e he
    obtain ⟨d, hnodes, -⟩ := of_bind h
    exact listed_of_nodes hs hnodes he
  · intro h
    rcases bind_error h with h | ⟨d, -, h⟩
    · exact unlisted_of_nodes hs h
    · exact (noMiss_calls.bind (fun _ => noMiss_ok) h).elim

end Exchange

end SinkTrace
