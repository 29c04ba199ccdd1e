import Mathlib.Data.List.Nodup
import SinkTrace.Proofs.Report.Exchange
import SinkTrace.Proofs.Text.Split

/-!
# The numbering of an exchange document

The methods are numbered in the order in which they are listed, those of the package first. A number
is found by the name of its method. Different methods are written differently, since the module and
the rest of a name can be read off it; only a module with a dot after it is written like the module.
-/

namespace SinkTrace

open Table List Exchange

lemma Table.entries_set {κ β : Type} [BEq κ] {t : Table κ β} {k : κ} (h : t.contains k = false)
    (v : β) : (t.set k v).entries = t.entries ++ [(k, v)] := by
  obtain ⟨es⟩ := t
  unfold set
  simp only [contains, any_eq_false] at h ⊢
  induction es with
  | nil => rfl
  | cons e es ih =>
    rw [forall_mem_cons] at h
    simp [setIn, h.1, ih h.2]

namespace Exchange

variable {s : Source} {d d' : Document} {ps : List (Nat × String)} {p q : String × String}
  {e : String × ModuleInfo} {done rest : List (String × ModuleInfo)} {key name x : String}
  {ms : Table String ModuleInfo}

/-! ### Names -/

/-- The modules are written differently and without slashes. The name of a method is that of its
module or goes on after it and a dot. -/
structure Source.Plain (s : Source) : Prop where
  inner : (s.modules.inner.keys.map moduleText).Nodup
  outer : (s.modules.outer.keys.map fun m => (outerParts m "").1).Nodup
  innerSlash : ∀ m ∈ s.modules.inner.keys, '/' ∉ (moduleText m).toList
  outerSlash : ∀ m ∈ s.modules.outer.keys, '/' ∉ (outerParts m "").1.toList
  methods : ∀ p ∈ s.methods, p.2 = p.1 ∨ ∃ rest, rest ≠ "" ∧ p.2 = p.1 ++ "." ++ rest
  names : ∀ p ∈ s.methods, '/' ∉ p.2.toList ∧ '(' ∉ p.2.toList

/-- What is written of a method after its module. -/
def Source.tail (s : Source) (p : String × String) (part : String) : String :=
  part ++ if s.functions.contains p.2 then "()" else ""

lemma mem_keys_of_mem_methods (hp : p ∈ s.methods) : p.1 ∈ s.modules.inner.keys := by
  obtain ⟨info, hinfo, -⟩ := mem_methodsOf.mp hp
  exact mem_map_of_mem hinfo

section Plain

variable (h : s.Plain) (hp : p ∈ s.methods)

include h hp

lemma Source.Plain.uri :
    ∃ part, p.2 = p.1 ++ (if part = "" then "" else "." ++ part) ∧ '/' ∉ (s.tail p part).toList ∧
      '(' ∉ part.toList ∧ s.uri p = .ok ("/" ++ (moduleText p.1 ++ "/" ++ s.tail p part)) := by
  obtain ⟨m, x⟩ := p
  have htail : ∀ part, '/' ∉ part.toList → '/' ∉ (s.tail (m, x) part).toList := by
    intro part hpart
    unfold Source.tail
    split_ifs <;> simp [hpart]
  obtain ⟨hslash, hparen⟩ : '/' ∉ x.toList ∧ '(' ∉ x.toList := h.names _ hp
  have hmethod : x = m ∨ ∃ rest, rest ≠ "" ∧ x = m ++ "." ++ rest := h.methods _ hp
  unfold Source.uri uriOf
  rcases hmethod with rfl | ⟨rest, hne, rfl⟩
  · refine ⟨"", by simp, htail "" (by simp), by simp, ?_⟩
    simp [Source.tail, String.append_assoc]
    rfl
  · have hrest : Text.afterPrefix? (m ++ ".").toList (m ++ "." ++ rest).toList =
      some rest.toList := by
      have hsplit : (m ++ "." ++ rest).toList = (m ++ ".").toList ++ rest.toList := by simp
      rw [hsplit, Text.afterPrefix?_append]
    have hlong : m ++ "." ++ rest ≠ m := by
      intro heq
      have hlength := congrArg (·.toList.length) heq
      simp at hlength
    have hempty : m ++ "." ++ rest ≠ "" := by simp [String.append_eq_empty_iff]
    refine ⟨rest, by simp [hne, String.append_assoc], htail rest ?_, ?_, ?_⟩
    · simpa using fun hmem => hslash (by simp [hmem])
    · simpa using fun hmem => hparen (by simp [hmem])
    · simp only [hlong, hempty, hrest]
      simp [Source.tail, String.append_assoc]
      rfl

lemma Source.Plain.uri_inj (hq : q ∈ s.methods) (heq : s.uri p = s.uri q) : p = q := by
  obtain ⟨part, hpart, hslash, hparen, hwritten⟩ := h.uri hp
  obtain ⟨part', hpart', -, hparen', hwritten'⟩ := h.uri hq
  have hkey := mem_keys_of_mem_methods hp
  have hsame := Except.ok.inj (hwritten.symm.trans (heq.trans hwritten'))
  obtain ⟨hmodule, htail⟩ := Text.append_mark_inj rfl (h.innerSlash _ hkey) hslash
    ((String.append_right_inj _).mp hsame)
  have hfirst : p.1 = q.1 :=
    inj_on_of_nodup_map h.inner hkey (mem_keys_of_mem_methods hq) hmodule
  have hparts : part = part' := by
    simp only [Source.tail, ← String.toList_inj] at htail ⊢
    split_ifs at htail
    · simpa using htail
    · simp at htail
      simp [← htail] at hparen'
    · simp at htail
      simp [htail] at hparen
    · simpa using htail
  exact Prod.ext hfirst (by rw [hpart, hpart', hfirst, hparts])

lemma Source.Plain.count_uri {uri : String}
    (huri : s.uri p = .ok uri) : uri.toList.count '/' = 2 := by
  obtain ⟨part, -, hslash, -, hwritten⟩ := h.uri hp
  cases huri.symm.trans hwritten
  have hmodule := h.innerSlash _ (mem_keys_of_mem_methods hp)
  simp [count_eq_zero.mpr hmodule, count_eq_zero.mpr hslash]

end Plain

lemma lt_count_outerUriOf {module : String} : 2 < (outerUriOf module name).toList.count '/' := by
  have hmarks : "//".toList.count '/' = 2 := by decide
  simp only [outerUriOf, String.toList_append, count_append, hmarks]
  omega

/-! ### Numbers -/

/-- The numbers of a module, with the names they stand for. -/
def ModuleNodes.names (m : ModuleNodes) : List (Nat × String) :=
  m.nodes.entries.map fun e => (e.1, e.2.uri)

def namesIn (t : Table String ModuleNodes) : List (Nat × String) :=
  t.entries.flatMap fun e => e.2.names

/-- The names have the numbers below `next`, and each name is found with a number of its own. -/
structure Numbering (ps : List (Nat × String)) (numbers : Table String Nat) (next : Nat) :
    Prop where
  ids : ps.map (·.1) = List.range next
  named : ∀ uri i, numbers.get? uri = some i → (i, uri) ∈ ps
  found : ∀ p ∈ ps, numbers.contains p.2 = true

/-- One more node of a module. -/
def fill (r : Document × ModuleNodes) (n : Node) : Document × ModuleNodes :=
  ((r.1.number n.uri).1, { r.2 with nodes := r.2.nodes.set r.1.next n })

variable {r : Document × ModuleNodes}

section Numbering

variable (h : Numbering (ps ++ r.2.names) r.1.numbers r.1.next)

include h

lemma Numbering.names_fill (n : Node) : (fill r n).2.names = r.2.names ++ [(r.1.next, n.uri)] := by
  have hids := h.ids
  have hkeys : r.2.names.map (·.1) = r.2.nodes.keys := by simp [ModuleNodes.names, Table.keys]
  rw [map_append, hkeys] at hids
  have hnew : r.2.nodes.contains r.1.next = false := by
    rw [← Bool.not_eq_true, ← mem_keys_iff]
    intro hmem
    have hid := mem_append_right (ps.map (·.1)) hmem
    simp [hids] at hid
  simp [fill, ModuleNodes.names, entries_set hnew]

lemma Numbering.fill {n : Node} :
    Numbering (ps ++ (fill r n).2.names) (fill r n).1.numbers (fill r n).1.next := by
  rw [h.names_fill, ← append_assoc]
  refine ⟨?_, fun uri i hi => ?_, fun p hp => ?_⟩
  · rw [map_append, h.ids]
    exact range_succ.symm
  · simp only [Exchange.fill, Document.number, get?_set] at hi
    split_ifs at hi with huri
    · cases hi
      simp [huri]
    · exact mem_append_left _ (h.named uri i hi)
  · rw [Exchange.fill, Document.number, contains_set]
    rcases mem_append.mp hp with hp | hp
    · exact .inr (h.found p hp)
    · simp [mem_singleton.mp hp]

lemma Numbering.foldl (ns : List Node) :
    let r' := ns.foldl Exchange.fill r
    Numbering (ps ++ r'.2.names) r'.1.numbers r'.1.next ∧
      r'.2.names.map (·.2) = r.2.names.map (·.2) ++ ns.map (·.uri) ∧
      r'.1.inner = r.1.inner ∧ r'.1.outer = r.1.outer := by
  induction ns generalizing r with
  | nil => exact ⟨h, by simp, rfl, rfl⟩
  | cons n ns ih =>
    obtain ⟨hnumbering, hnames, hsame⟩ := ih h.fill
    rw [h.names_fill] at hnames
    exact ⟨hnumbering, by simpa using hnames, hsame⟩

end Numbering

/-- A module is listed under a new key. -/
lemma Numbering.module {t : Table String ModuleNodes}
    (h : Numbering (ps ++ namesIn t) d.numbers d.next) (hkey : key ∉ t.keys) (file : Option String)
    (ns : List Node) :
    let r := ns.foldl Exchange.fill (d, { file })
    Numbering (ps ++ namesIn (t.set key r.2)) r.1.numbers r.1.next ∧
      (t.set key r.2).keys = t.keys ++ [key] ∧
      (namesIn (t.set key r.2)).map (·.2) = (namesIn t).map (·.2) ++ ns.map (·.uri) ∧
      r.1.inner = d.inner ∧ r.1.outer = d.outer := by
  have hstart : Numbering (ps ++ namesIn t ++ ModuleNodes.names { file }) d.numbers d.next := by
    simpa [ModuleNodes.names] using h
  obtain ⟨hnumbering, hnames, hsame⟩ := Numbering.foldl (r := (d, { file })) hstart ns
  have hset (m : ModuleNodes) : (t.set key m).entries = t.entries ++ [(key, m)] :=
    entries_set (by simpa [mem_keys_iff] using hkey) m
  refine ⟨?_, by simp [Table.keys, hset], ?_, hsame⟩
  · simpa [namesIn, hset] using hnumbering
  · simpa [namesIn, hset, ModuleNodes.names] using hnames

/-- The document has the methods of the modules `es` of the package and of `os` outside it. -/
structure Documents (s : Source) (es os : List (String × ModuleInfo)) (d : Document) : Prop where
  numbering : Numbering (namesIn d.inner ++ namesIn d.outer) d.numbers d.next
  inner : d.inner.keys = es.map (keyOf s.functions ·.1)
  outer : d.outer.keys = os.map (outerModule ·.1)
  names : (methodsOf es).map s.uri = ((namesIn d.inner).map (·.2)).map .ok
  others : ∀ uri ∈ (namesIn d.outer).map (·.2), 2 < uri.toList.count '/'

lemma exists_foldlM_addMethod {module : String} {entries : List (String × Span)}
    (huri : ∀ e ∈ entries, ∃ uri, s.uri (module, e.1) = .ok uri) (r : Document × ModuleNodes) :
    ∃ ns : List Node, entries.map (fun e => s.uri (module, e.1)) = (ns.map (·.uri)).map .ok ∧
      entries.foldlM (addMethod s module) r = .ok (ns.foldl fill r) := by
  induction entries generalizing r with
  | nil => exact ⟨[], rfl, rfl⟩
  | cons e entries ih =>
    obtain ⟨⟨uri, hfirst⟩, hothers⟩ := forall_mem_cons.mp huri
    have hrun : uriOf s.functions module e.1 = .ok uri := hfirst
    obtain ⟨ns, hns, hrest⟩ := ih hothers (fill r { uri, span := some e.2 })
    refine ⟨{ uri, span := some e.2 } :: ns, by simp [hns, hfirst], ?_⟩
    rw [foldlM_cons, addMethod, hrun]
    exact hrest

lemma Documents.addInner (h : Documents s done [] d)
    (hkey : keyOf s.functions e.1 ∉ done.map (keyOf s.functions ·.1))
    (huri : ∀ p ∈ methodsOf [e], ∃ uri, s.uri p = .ok uri) :
    ∃ d', Exchange.addInner s d e.1 e.2 = .ok d' ∧ Documents s (done ++ [e]) [] d' := by
  obtain ⟨name, info⟩ := e
  let file := info.filename.bind fun f => if f = "" then none else some (Path.relative f s.package)
  obtain ⟨ns, hns, hrun⟩ := exists_foldlM_addMethod (fun x hx => huri (name, x.1)
    (mem_methodsOf.mpr ⟨info, by simp, mem_map_of_mem hx⟩)) (d, { file })
  have hnil : namesIn d.outer = [] := by
    have hentries : d.outer.entries = [] := by simpa [Table.keys] using h.outer
    simp [namesIn, hentries]
  have hstart : Numbering ([] ++ namesIn d.inner) d.numbers d.next := by
    simpa [hnil] using h.numbering
  obtain ⟨hnumbering, hkeys, hnames, hinner, houter⟩ := hstart.module (h.inner ▸ hkey) file ns
  generalize ns.foldl fill (d, { file }) = r at hrun hnumbering hkeys hnames hinner houter
  refine ⟨{ r.1 with inner := d.inner.set (keyOf s.functions name) r.2 }, ?_, ?_, ?_, ?_, ?_, ?_⟩
  · unfold Exchange.addInner
    rw [uriOf_empty]
    change (info.methods.entries.foldlM (addMethod s name) (d, { file }) >>= _) = _
    rw [hrun, ← hinner]
    rfl
  · simpa [houter, hnil] using hnumbering
  · simpa [← h.inner] using hkeys
  · exact houter ▸ h.outer
  · have hkeys : (methodsOf [(name, info)]).map s.uri = (ns.map (·.uri)).map .ok := by
      simp [methodsOf, Table.keys, ← hns]
    have hmethods : methodsOf (done ++ [(name, info)])
        = methodsOf done ++ methodsOf [(name, info)] := flatMap_append
    rw [hmethods, map_append, h.names, hkeys, ← map_append, hnames]
  · exact houter ▸ h.others

lemma Documents.addOuter {os : List (String × ModuleInfo)} (h : Documents s done os d)
    (hkey : outerModule e.1 ∉ os.map (outerModule ·.1)) :
    Documents s done (os ++ [e]) (Exchange.addOuter d e.1 e.2) := by
  let ns := (e.2.methods.keys.filter (· ≠ e.1)).map fun x => ({ uri := outerUriOf e.1 x } : Node)
  have hrun : Exchange.addOuter d e.1 e.2 =
      let r := ns.foldl fill (d, { file := some "" })
      { r.1 with outer := r.1.outer.set (outerModule e.1) r.2 } := by
    simp only [ns, foldl_map]
    rfl
  obtain ⟨hnumbering, hkeys, hnames, hinner, houter⟩ :=
    h.numbering.module (h.outer ▸ hkey) (some "") ns
  rw [hrun]
  generalize ns.foldl fill (d, { file := some "" }) = r at hnumbering hkeys hnames hinner houter ⊢
  refine ⟨?_, hinner ▸ h.inner, ?_, hinner ▸ h.names, ?_⟩
  · simpa [hinner, houter] using hnumbering
  · simpa [houter, ← h.outer] using hkeys
  · simp only [houter, hnames, forall_mem_append]
    refine ⟨h.others, fun uri huri => ?_⟩
    obtain ⟨x, -, rfl⟩ : ∃ x, _ ∧ outerUriOf e.1 x = uri := by simpa [ns] using huri
    exact lt_count_outerUriOf

/-- Modules are added one after the other, each under a key of its own. -/
lemma exists_foldlM_of_nodup {α : Type} {P : List α → Document → Prop} (key : α → String)
    {f : Document → α → Except Fault Document} {as bs : List α}
    (hf : ∀ a ∈ bs, ∀ as d, P as d → key a ∉ as.map key → ∃ d', f d a = .ok d' ∧ P (as ++ [a]) d')
    (h : P as d) (hkeys : ((as ++ bs).map key).Nodup) :
    ∃ d', bs.foldlM f d = .ok d' ∧ P (as ++ bs) d' := by
  induction bs generalizing as d with
  | nil => exact ⟨d, rfl, by simpa using h⟩
  | cons a bs ih =>
    have hnew : key a ∉ as.map key := by
      simp only [map_append, map_cons, nodup_append] at hkeys
      exact fun hmem => hkeys.2.2 _ hmem _ (.head _) rfl
    obtain ⟨ha, hbs⟩ := forall_mem_cons.mp hf
    obtain ⟨d₁, hfirst, h₁⟩ := ha as d h hnew
    obtain ⟨d', hrest, h'⟩ := ih hbs h₁ (by simpa using hkeys)
    refine ⟨d', ?_, by simpa using h'⟩
    rw [foldlM_cons, hfirst]
    exact hrest

/-! ### Classes -/

lemma of_foldlM {α β : Type} {f : β → α → Except Fault β} {P : β → Prop} {as : List α} {b c : β}
    (hf : ∀ b a c, P b → f b a = .ok c → P c) (hb : P b) (h : as.foldlM f b = .ok c) : P c := by
  induction as generalizing b with
  | nil =>
    cases h
    exact hb
  | cons a as ih =>
    rw [foldlM_cons] at h
    obtain ⟨b', hb', h⟩ := of_bind h
    exact ih (hf b a b' hb hb') h

lemma set_same {t : Table String ModuleNodes} {m m' : ModuleNodes} (h : t.get? key = some m)
    (hm : m'.names = m.names) : namesIn (t.set key m') = namesIn t ∧
    (t.set key m').keys = t.keys := by
  obtain ⟨es⟩ := t
  unfold Table.set namesIn Table.keys
  simp only [get?] at h ⊢
  induction es with
  | nil => simp at h
  | cons e es ih =>
    cases he : e.1 == key with
    | true => simp_all [setIn]
    | false =>
      simp only [find?_cons, he] at h
      simp [setIn, he, ih h]

/-- Superclasses change no number. -/
lemma Documents.addSuperClasses {c : ClassInfo} (h : Documents s done [] d)
    (hrun : addSuperClasses s d name c = .ok d') : Documents s done [] d' := by
  obtain ⟨uri, -, hrun⟩ := of_bind hrun
  obtain ⟨key, -, hrun⟩ := of_bind hrun
  split at hrun
  · next nodes number hnodes _ =>
    split_ifs at hrun
    · cases hrun
    · obtain ⟨supers, -, hrun⟩ := of_bind hrun
      cases hrun
      have hsame : ModuleNodes.names { nodes with nodes := nodes.nodes.modify number fun n =>
          { n with superClasses := some supers } } = nodes.names := by
        simp only [ModuleNodes.names, Table.modify, map_map]
        refine map_congr_left fun e _ => ?_
        simp only [Function.comp]
        split_ifs <;> rfl
      obtain ⟨hnames, hkeys⟩ := set_same hnodes hsame
      constructor <;> simp only [hnames, hkeys]
      exacts [h.numbering, h.inner, h.outer, h.names, h.others]
  · cases hrun

/-! ### Calls -/

lemma moduleOf?_eq_some {m : String} (h : moduleOf? ms x = some m) :
    (m, x) ∈ methodsOf ms.entries := by
  obtain ⟨e, he, rfl⟩ := Option.map_eq_some_iff.mp h
  exact mem_methodsOf.mpr ⟨e.2, by simpa using mem_of_find?_eq_some he,
    mem_keys_iff.mpr (by simpa using find?_some he)⟩

lemma moduleOf?_eq_none : moduleOf? ms x = none ↔ ∀ m, (m, x) ∉ methodsOf ms.entries := by
  simp [moduleOf?, mem_methodsOf, mem_keys_iff]

/-- The number belongs to a method of the name. -/
def Document.Has (s : Source) (d : Document) (i : Nat) (x : String) : Prop :=
  ∃ m uri, (m, x) ∈ s.methods ∧ s.uri (m, x) = .ok uri ∧ (i, uri) ∈ namesIn d.inner

/-- The name is that of a method of the package, and of no method outside it. -/
def Source.Inside (s : Source) (x : String) : Prop :=
  (∃ m, (m, x) ∈ s.methods) ∧ ∀ m, (m, x) ∉ methodsOf s.modules.outer.entries

/-- The document of a source. -/
abbrev Source.Made (s : Source) : Document → Prop :=
  Documents s s.modules.inner.entries s.modules.outer.entries

lemma Source.Plain.exists_inner (h : s.Plain) :
    ∃ d, s.modules.inner.entries.foldlM (fun d (name, m) => addInner s d name m) {} = .ok d ∧
      Documents s s.modules.inner.entries [] d := by
  have hstart : Documents s [] [] {} := ⟨⟨rfl, nofun, nofun⟩, rfl, rfl, rfl, nofun⟩
  refine exists_foldlM_of_nodup (P := (Documents s · [])) (keyOf s.functions ·.1)
    (fun e he _ d hd hkey => ?_) hstart ?_
  · refine hd.addInner hkey fun p hp => ?_
    have hmem : p ∈ s.methods := mem_flatMap.mpr ⟨e, he, by simpa [methodsOf] using hp⟩
    obtain ⟨part, -, -, -, huri⟩ := h.uri hmem
    exact ⟨_, huri⟩
  · have hkeys : s.modules.inner.keys.Pairwise fun m n => keyOf s.functions m ≠
      keyOf s.functions n :=
      (pairwise_map.mp h.inner).imp keyOf_ne
    simpa [Table.keys, Nodup, pairwise_map] using hkeys

lemma Source.Plain.made (h : s.Plain) (hd : nodes s = .ok d) : s.Made d := by
  obtain ⟨d₀, hinner, hd⟩ := of_bind hd
  obtain ⟨d₁, hclasses, hd⟩ := of_bind hd
  obtain ⟨d₀', hinner', hdoc⟩ := h.exists_inner
  cases hinner'.symm.trans hinner
  have hdoc₁ := of_foldlM (fun _ _ _ hdoc => hdoc.addSuperClasses) hdoc hclasses
  have hmodules : s.modules.outer.entries.map (outerModule ·.1)
      = s.modules.outer.keys.map fun m => (outerParts m "").1 := by
    rw [Table.keys, map_map]
    refine map_congr_left fun e he => ?_
    have hslash := h.outerSlash e.1 (mem_map_of_mem he)
    have hsplit : Text.splitOn _ "/" = _ := Text.splitOn_of_not_mem rfl hslash
    simp [outerModule, hsplit]
  obtain ⟨d₂, hrun, hdoc₂⟩ := exists_foldlM_of_nodup
    (outerModule ·.1) (fun e _ _ d hd hkey => ⟨_, rfl, hd.addOuter hkey⟩) hdoc₁ (hmodules ▸ h.outer)
  cases (foldlM_pure ..).symm.trans hrun
  cases hd
  exact hdoc₂

lemma Source.Plain.endText (h : s.Plain) (hd : s.Made d) (x : String) :
    (∃ o, endText s d x = .ok o) ∧
      (s.Inside x → ∃ i, endText s d x = .ok (some (toString i)) ∧ d.Has s i x) := by
  unfold Exchange.endText
  cases hm : moduleOf? s.modules.inner x with
  | none =>
    refine ⟨?_, fun hx => ?_⟩
    · cases moduleOf? s.modules.outer x <;> exact ⟨_, rfl⟩
    · obtain ⟨m, hmem⟩ := hx.1
      exact absurd hmem (moduleOf?_eq_none.mp hm m)
  | some m =>
    have hmem : (m, x) ∈ s.methods := moduleOf?_eq_some hm
    have hlisted : s.uri (m, x) ∈ ((namesIn d.inner).map (·.2)).map .ok :=
      hd.names ▸ mem_map_of_mem hmem
    obtain ⟨uri, hnamed, huri⟩ := mem_map.mp hlisted
    obtain ⟨p, hp, rfl⟩ := mem_map.mp hnamed
    obtain ⟨i, hi⟩ := contains_iff.mp (hd.numbering.found p (mem_append_left _ hp))
    have hinner : (i, p.2) ∈ namesIn d.inner := by
      refine (mem_append.mp (hd.numbering.named _ i hi)).resolve_right fun houter => ?_
      exact Nat.ne_of_gt (hd.others _ (mem_map_of_mem houter)) (h.count_uri hmem huri.symm)
    have hrun : uriOf s.functions m x = .ok p.2 := huri.symm
    simp only [hrun]
    refine ⟨⟨_, rfl⟩, fun _ => ⟨i, ?_, m, p.2, hmem, huri.symm, hinner⟩⟩
    simp [bind, Except.bind, pure, Except.pure, hi]

/-- One more call. -/
def addCall (s : Source) (d : Document) (cs : Calls) (e : String × String) :
    Except Fault Calls := do
  match ← endText s d e.1, ← endText s d e.2 with
  | some a, some b =>
    if (moduleOf? s.modules.outer e.2).isSome then return { cs with outer := cs.outer ++ [(a, b)] }
    else return { cs with inner := cs.inner ++ [(a, b)] }
  | _, _ => return cs

/-- A call is written by numbers of its ends. -/
def Document.Calls (s : Source) (d : Document) (cs : Exchange.Calls) (e : String × String) : Prop :=
  ∃ i j, d.Has s i e.1 ∧ d.Has s j e.2 ∧ (toString i, toString j) ∈ cs.inner

lemma Source.Plain.addCall (h : s.Plain) (hd : s.Made d) (cs : Calls) (e : String × String) :
    ∃ cs', Exchange.addCall s d cs e = .ok cs' ∧ cs.inner ⊆ cs'.inner ∧
      (s.Inside e.1 → s.Inside e.2 → d.Calls s cs' e) := by
  obtain ⟨⟨a, ha⟩, hsource⟩ := h.endText hd e.1
  obtain ⟨⟨b, hb⟩, htarget⟩ := h.endText hd e.2
  simp only [Exchange.addCall, ha, hb, bind, Except.bind] at hsource htarget ⊢
  by_cases hinside : s.Inside e.1 ∧ s.Inside e.2
  · obtain ⟨i, hi, hnode⟩ := hsource hinside.1
    obtain ⟨j, hj, hnode'⟩ := htarget hinside.2
    cases hi
    cases hj
    have hnone : moduleOf? s.modules.outer e.2 = none := moduleOf?_eq_none.mpr hinside.2.2
    simp only [hnone, Option.isSome_none, Bool.false_eq_true, if_false]
    exact ⟨_, rfl, by simp, fun _ _ => ⟨i, j, hnode, hnode', by simp⟩⟩
  · have hnot : ∀ cs', s.Inside e.1 → s.Inside e.2 → d.Calls s cs' e :=
      fun _ hsrc hdst => absurd ⟨hsrc, hdst⟩ hinside
    split
    · split_ifs
      · exact ⟨_, rfl, Subset.refl _, hnot _⟩
      · exact ⟨_, rfl, by simp, hnot _⟩
    · exact ⟨_, rfl, Subset.refl _, hnot _⟩

lemma Source.Plain.calls (h : s.Plain) (hd : s.Made d) (edges : List (String × String))
    (start : Calls) : ∃ cs, edges.foldlM (Exchange.addCall s d) start = .ok cs ∧
      start.inner ⊆ cs.inner ∧ ∀ e ∈ edges, s.Inside e.1 → s.Inside e.2 → d.Calls s cs e := by
  induction edges generalizing start with
  | nil => exact ⟨start, rfl, Subset.refl _, nofun⟩
  | cons e edges ih =>
    obtain ⟨next, hnext, hkept, hadded⟩ := h.addCall hd start e
    obtain ⟨cs, hrun, hall, hedges⟩ := ih next
    refine ⟨cs, ?_, Subset.trans hkept hall, ?_⟩
    · rw [foldlM_cons, hnext]
      exact hrun
    · rintro e' (_ | ⟨_, he'⟩) hsrc hdst
      · obtain ⟨i, j, hi, hj, hmem⟩ := hadded hsrc hdst
        exact ⟨i, j, hi, hj, hall hmem⟩
      · exact hedges e' he' hsrc hdst

/-- The numbers of the methods are those below the number of nodes, each once. Different methods of
the package are written differently, and a call between them is written by their numbers. -/
theorem numbering_exact (h : s.Plain) :
    (∀ p ∈ s.methods, ∀ q ∈ s.methods, s.uri p = s.uri q → p = q) ∧
    (s.classes.entries = [] → ∃ d, nodes s = .ok d) ∧
    ∀ d, nodes s = .ok d → (namesIn d.inner ++ namesIn d.outer).map (·.1) = List.range d.next ∧
      ∃ cs, calls s d = .ok cs ∧ ∀ e ∈ s.edges, s.Inside e.1 → s.Inside e.2 → d.Calls s cs e := by
  refine ⟨fun p hp q hq => h.uri_inj hp hq, fun hclasses => ?_, fun d hd => ?_⟩
  · obtain ⟨d, hd, -⟩ := h.exists_inner
    unfold nodes
    rw [hd, hclasses]
    exact ⟨_, rfl⟩
  · obtain ⟨cs, hcs, -, hedges⟩ := h.calls (h.made hd) s.edges {}
    exact ⟨(h.made hd).numbering.ids, cs, hcs, hedges⟩

/-- A module that calls itself, with another method. -/
def selfCall (method : String) : Source :=
  let methods := ⟨[("m", ⟨none, none⟩), (method, ⟨none, none⟩)]⟩
  { modules := { inner := ⟨[("m", { name := "m", filename := none, methods })]⟩ }
    edges := [("m", "m")] }

theorem selfCall_numbered : ∃ d cs, nodes (selfCall "m.f") = .ok d ∧
    calls (selfCall "m.f") d = .ok cs ∧ d.Calls (selfCall "m.f") cs ("m", "m") := by
  have hmethods : (selfCall "m.f").methods = [("m", "m"), ("m", "m.f")] := by decide +kernel
  have hplain : (selfCall "m.f").Plain := by
    refine ⟨by decide +kernel, by decide, by decide +kernel, by decide, ?_, by decide +kernel⟩
    rw [hmethods, List.forall_mem_cons, List.forall_mem_singleton]
    exact ⟨.inl rfl, .inr ⟨"f", by decide, rfl⟩⟩
  obtain ⟨-, hmade, hall⟩ := numbering_exact hplain
  obtain ⟨d, hd⟩ := hmade rfl
  obtain ⟨-, cs, hcs, hedges⟩ := hall d hd
  have hinside : (selfCall "m.f").Inside "m" := ⟨⟨"m", by simp [hmethods]⟩, nofun⟩
  exact ⟨d, cs, hd, hcs, hedges _ (.head _) hinside hinside⟩

/-- A method that is the module with a dot is written like the module, and takes its number. -/
theorem trailing_dot_takes_number :
    (selfCall "m.").uri ("m", "m") = (selfCall "m.").uri ("m", "m.") ∧
      ((nodes (selfCall "m.")).toOption.bind fun d =>
        (calls (selfCall "m.") d).toOption.map (·.inner)) = some [("1", "1")] := by decide +kernel

end Exchange

end SinkTrace
