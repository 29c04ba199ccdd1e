import SinkTrace.Proofs.Closure.Marks

/-!
# What completion adds

Completion goes through sets and tables that it changes at the same time. The same rounds are
written down here with every step that could stop them: a definition that is missing, a position
that is no number, a collection that changes while it is gone through. None of these happens, and a
definition gets no new names but those of other definitions.
-/

namespace SinkTrace

open Table

namespace Definitions

variable {ds ds' : Definitions} {item ns target : String} {arg : Option String} {d t : Definition}
  {f : Definition → Definition} {s : Rounds}

/-! ### Gains from completion -/

/-- The definition `d` is there as `e`, and points in addition only to other definitions of `ds`. -/
structure Extended (ds : Definitions) (key : String) (d e : Definition) : Prop where
  ns : e.ns = d.ns
  kind : e.kind = d.kind
  module : e.module = d.module
  lits : e.lits = d.lits
  taints : e.taints = d.taints
  scalars : e.name.points.scalars = d.name.points.scalars
  names : d.name.points.names ⊆ e.name.points.names
  added : ∀ x ∈ e.name.points.names, x ∉ d.name.points.names → ds.contains x = true ∧ x ≠ key

lemma extended_name (ds : Definitions) (key : String) (d : Definition) {p : NamePointer}
    (h : p.points = d.name.points) : Extended ds key d { d with name := p } := by
  refine ⟨rfl, rfl, rfl, rfl, rfl, congrArg _ h, ?_, ?_⟩
  · exact fun x hx => h ▸ hx
  · exact fun x hx hnot => absurd (h ▸ hx) hnot

/-- The namespaces are the same, and every definition is extended. -/
structure Completes (ds ds' : Definitions) : Prop where
  keys : ds'.current.keys = ds.current.keys
  extended : ∀ ns d, ds.get? ns = some d → ∃ e, ds'.get? ns = some e ∧ Extended ds ns d e

lemma Completes.contains_eq (h : Completes ds ds') (n : String) :
    ds'.contains n = ds.contains n := by
  rw [Bool.eq_iff_iff, contains, contains, ← mem_keys_iff, h.keys, mem_keys_iff]

lemma Completes.keyed (h : Completes ds ds') (hds : ds.Keyed) : ds'.Keyed := by
  intro ns e he
  obtain ⟨d, hd⟩ := contains_iff.mp ((h.contains_eq ns).symm.trans (contains_of_get? he))
  obtain ⟨e', he', hde⟩ := h.extended ns d hd
  obtain rfl : e' = e := Option.some.inj (he'.symm.trans he)
  exact hde.ns.trans (hds ns d hd)

lemma Completes.refl (ds : Definitions) : Completes ds ds :=
  ⟨rfl, fun ns d hd => ⟨d, hd, extended_name ds ns d rfl⟩⟩

lemma Completes.trans {a b c : Definitions} (h : Completes a b) (h' : Completes b c) :
    Completes a c where
  keys := h'.keys.trans h.keys
  extended ns d hd := by
    obtain ⟨e, he, hde⟩ := h.extended ns d hd
    obtain ⟨f, hf, hef⟩ := h'.extended ns e he
    refine ⟨f, hf, hef.ns.trans hde.ns, hef.kind.trans hde.kind, hef.module.trans hde.module,
      hef.lits.trans hde.lits, hef.taints.trans hde.taints, hef.scalars.trans hde.scalars,
      List.Subset.trans hde.names hef.names, fun x hx hnot => ?_⟩
    by_cases hxe : x ∈ e.name.points.names
    · exact hde.added x hxe hnot
    · rw [← h.contains_eq]
      exact hef.added x hx hxe

/-! ### Steps -/

def argsOf (ds : Definitions) (ns : String) : Table (Option String) PointSet :=
  ((ds.get? ns).map (·.name.args)).getD {}

lemma valuesOf_eq (ds : Definitions) (ns : String) (arg : Option String) :
    valuesOf ds ns arg = (argsOf ds ns).getD arg {} := by
  unfold valuesOf argsOf
  cases ds.get? ns <;> rfl

/-- A step of completion, in which only the arguments of some definitions may change. -/
structure Step (touched : String → Prop) (ds ds' : Definitions) :
    Prop extends Completes ds ds' where
  others : ∀ m, ¬ touched m → argsOf ds' m = argsOf ds m

variable {touched : String → Prop}

lemma Step.refl : Step touched ds ds := ⟨.refl ds, fun _ _ => rfl⟩

lemma Step.trans {a b c : Definitions} (h : Step touched a b) (h' : Step touched b c) :
    Step touched a c :=
  ⟨h.toCompletes.trans h'.toCompletes, fun m hm => (h'.others m hm).trans (h.others m hm)⟩

lemma Step.mono {touched' : String → Prop} (h : Step touched ds ds')
    (hsub : ∀ m, touched m → touched' m) : Step touched' ds ds' :=
  { h with others := fun m hm => h.others m fun ht => hm (hsub m ht) }

lemma argsOf_adjustAt {m : String} : argsOf (ds.adjustAt ns f) m =
      if m = ns then ((ds.get? ns).map fun d => (f d).name.args).getD {} else argsOf ds m := by
  unfold argsOf
  rw [get?_adjustAt]
  split_ifs with hm
  · rw [hm, Option.map_map]
    rfl
  · rfl

lemma step_adjustAt (hext : ∀ d, ds.get? ns = some d → Extended ds ns d (f d)) :
    Step (· = ns) ds (ds.adjustAt ns f) where
  keys := keys_modify _ _ _
  extended m d hd := by
    rw [get?_adjustAt]
    split_ifs with hm
    · subst hm
      exact ⟨f d, by rw [hd, Option.map_some], hext d hd⟩
    · exact ⟨d, hd, extended_name ds m d rfl⟩
  others m hm := by rw [argsOf_adjustAt, if_neg hm]

/-! ### Values that are passed on -/

lemma addName_eq (d : Definition) (l : Literal) : d.addName l = d ∨ ∃ change added, d.addName l =
    { d with change := change, addedNames := added, name.points := d.name.points.add l } := by
  unfold Definition.addName Definition.noteName
  split_ifs
  · exact .inl rfl
  · exact .inr ⟨_, _, rfl⟩
  · exact .inr ⟨_, _, rfl⟩

lemma extended_addName (hitem : ds.contains item) (hne : item ≠ ns) :
    Extended ds ns d (d.addName (.str item)) := by
  rcases addName_eq d (.str item) with heq | ⟨change, added, heq⟩
  · rw [heq]
    exact extended_name ds ns d rfl
  · rw [heq]
    refine ⟨rfl, rfl, rfl, rfl, rfl, rfl, PointSet.within_add.names, fun x hx hnot => ?_⟩
    obtain rfl : item = x := by simpa [hnot] using PointSet.mem_names_add.mp hx
    exact ⟨hitem, hne⟩

lemma addName_of_current (h : ds.get? d.ns = some d) (l : Literal) : ∃ changed,
    ds.addName d.ref l = { ds.adjustAt d.ns (·.addName l) with changedNames := changed } := by
  have hnoted : (ds.noteNames d.ref).get? d.ref.ns = some d := h
  unfold addName
  dsimp only
  split_ifs
  · exact ⟨_, adjust_of_current hnoted rfl _⟩
  · exact ⟨ds.changedNames, adjust_of_current h rfl _⟩

lemma step_passItem {s : Definitions × Bool} (hs : s.1.Keyed) (hne : item ≠ target) :
    Step (fun _ => False) s.1 (passItem target s item).1 := by
  unfold passItem
  cases hd : s.1.get? target with
  | none => exact .refl
  | some d =>
    dsimp only
    split_ifs with hknown
    · exact .refl
    · simp only [Bool.or_eq_true, Bool.not_eq_true', not_or, Bool.not_eq_false] at hknown
      obtain rfl := hs target d hd
      obtain ⟨changed, heq⟩ := addName_of_current hd (.str item)
      have hstep : Step (· = d.ns) s.1 (s.1.adjustAt d.ns (·.addName (.str item))) :=
        step_adjustAt fun e _ => extended_addName hknown.2 hne
      rw [heq]
      refine ⟨⟨hstep.keys, hstep.extended⟩, fun m _ => ?_⟩
      refine argsOf_adjustAt.trans ?_
      split_ifs with hm
      · rw [hm, argsOf, hd]
        rcases addName_eq d (.str item) with h | ⟨_, _, h⟩ <;> simp only [Option.map_some, h]
      · rfl

/-! ### Rounds that could stop -/

/-- Goes through the items of a collection, which may not change its size on the way. -/
def through {σ α : Type} (size : σ → Nat) (step : σ → α → Except Fault σ) :
    List α → σ → Except Fault σ
  | [], s => .ok s
  | a :: as, s =>
    match step s a with
    | .error e => .error e
    | .ok t => if size t = size s then through size step as t else .error .changed

lemma through_ok {σ α : Type} {m : σ → Nat} {g : σ → α → Except Fault σ} {f : σ → α → σ}
    {I : σ → Prop} {as : List α}
    (h : ∀ a ∈ as, ∀ s, I s → g s a = .ok (f s a) ∧ m (f s a) = m s ∧ I (f s a)) {s : σ}
    (hs : I s) : through m g as s = .ok (as.foldl f s) ∧ I (as.foldl f s) := by
  induction as generalizing s with
  | nil => exact ⟨rfl, hs⟩
  | cons a as ih =>
    obtain ⟨ha, has⟩ := List.forall_mem_cons.mp h
    obtain ⟨hstep, hsize, hI⟩ := ha s hs
    rw [through, hstep]
    simpa only [hsize, if_true, List.foldl_cons] using ih has hI

def passItem? (target : String) (s : Definitions × Bool) (item : String) :
    Except Fault (Definitions × Bool) :=
  if s.1.contains target then .ok (passItem target s item) else .error .missing

/-- The values are gone through after the target was taken away from them. -/
def passTarget? (ns : String) (arg : Option String) (s : Definitions × Bool) (target : String) :
    Except Fault (Definitions × Bool) :=
  if target = ns || !s.1.contains target then .ok s
  else
    let ds := s.1.dropValue ns arg target
    through (fun s => (valuesOf s.1 ns arg).toList.length) (passItem? target)
      (valuesOf ds ns arg).names (ds, s.2)

def passValues? (ds : Definitions) (ns : String) (arg : Option String) (owner : String)
    (key : Option String) (targets : PointSet) : Except Fault (Definitions × Bool) :=
  if (valuesOf ds ns arg).same targets then .ok (ds, false)
  else through (fun s => (valuesOf s.1 owner key).toList.length) (passTarget? ns arg) targets.names
    (ds, false)

/-- The name under which `t` has the argument `arg` of `d`: by its position, if it has one. -/
def keyOf (d t : Definition) (arg : Option String) : Option String :=
  match d.name.positions.get? arg with
  | some pos => t.name.posNames.get? pos.value
  | none => arg

def changedBy (s : Rounds) (target : String) (r : Definitions × Bool) : Rounds :=
  { defs := r.1, next := if r.2 then s.next.insertEnd target else s.next }

/-- Hands an argument of `d` on to `t`. A new argument is added as a whole. -/
def handOver? (ns target : String) (s : Rounds) (arg : Option String) (d t : Definition) :
    Except Fault Rounds :=
  match t.name.arg? (keyOf d t arg) with
  | none => .ok (passArgument ns target s arg)
  | some targets =>
    (passValues? s.defs ns arg target (keyOf d t arg) targets).map (changedBy s target)

/-- A position is read again before it is used. -/
def passArgument? (ns target : String) (s : Rounds) (arg : Option String) : Except Fault Rounds :=
  match s.defs.get? ns, s.defs.get? target with
  | some d, some t => do
    if let some pos := d.name.positions.get? arg then readPos pos.value
    handOver? ns target s arg d t
  | _, _ => .error .missing

/-- The names are those of before the arguments are handed on; the arguments are gone through as
they are. -/
def passArguments? (s : Rounds) (ns : String) : Except Fault Rounds :=
  match s.defs.get? ns with
  | none => .error .missing
  | some d =>
    through (fun _ => 0) (fun s target =>
      if target = ns || !s.defs.contains target then .ok s
      else through (fun s => (argsOf s.defs ns).size) (passArgument? ns target)
        (argsOf s.defs ns).keys s)
      d.name.points.names s

/-- Rounds in which the definitions are gone through in some order, another one in every round. -/
def rounds? (order : Nat → Names → Names) : Nat → Names → Definitions → Except Fault Definitions
  | 0, _, ds => .ok ds
  | n + 1, work, ds => do
    let s ← through (fun _ => 0) passArguments? (order n work) { defs := ds }
    if s.next.isEmpty then .ok s.defs else rounds? order n s.next s.defs

def complete? (order : Nat → Names → Names) (ds : Definitions) : Except Fault Definitions :=
  rounds? order (max ds.current.size 20) ds.current.keys ds

/-! ### Nothing stops them -/

lemma argsOf_dropValue (ds : Definitions) (ns : String) (arg : Option String) (v : String) :
    argsOf (ds.dropValue ns arg v) ns = (argsOf ds ns).modify arg (·.eraseName v) := by
  unfold dropValue
  rw [argsOf_adjustAt, if_pos rfl]
  unfold argsOf
  cases ds.get? ns <;> rfl

lemma not_skipped : ¬(target = ns || !ds.contains target) ↔ target ≠ ns ∧ ds.contains target := by
  simp

lemma passTarget?_ok {s : Definitions × Bool} (hs : s.1.Keyed) (ns : String) (arg : Option String)
    (target : String) : passTarget? ns arg s target = .ok (passTarget ns arg s target) ∧
      Step (· = ns) s.1 (passTarget ns arg s target).1 ∧
      (argsOf (passTarget ns arg s target).1 ns).keys = (argsOf s.1 ns).keys := by
  unfold passTarget? passTarget
  split_ifs with hskip
  · exact ⟨rfl, .refl, rfl⟩
  · dsimp only
    have hargs := argsOf_dropValue s.1 ns arg target
    have hdrop : Step (· = ns) s.1 (s.1.dropValue ns arg target) :=
      step_adjustAt fun d _ => extended_name _ _ d rfl
    generalize s.1.dropValue ns arg target = ds at hargs hdrop ⊢
    have hds := hdrop.keyed hs
    -- the target is no longer one of the values
    have hnot : ∀ item ∈ (valuesOf ds ns arg).names, item ≠ target := by
      rintro item hitem rfl
      rw [valuesOf_eq, hargs, getD_modify rfl, if_pos rfl] at hitem
      simp [PointSet.eraseName] at hitem
    refine And.imp_right (fun hstep => ?_)
      (through_ok (I := fun t => Step (fun _ => False) ds t.1) (fun item hitem t ht => ?_) .refl)
    · refine ⟨hdrop.trans (hstep.mono fun _ => False.elim), ?_⟩
      rw [hstep.others ns id, hargs, keys_modify]
    · have hstep := step_passItem (ht.keyed hds) (hnot item hitem)
      refine ⟨if_pos ?_, ?_, ht.trans hstep⟩
      · rw [ht.contains_eq, hdrop.contains_eq]
        exact (not_skipped.mp hskip).2
      · rw [valuesOf_eq, valuesOf_eq, hstep.others ns id]

lemma passValues?_ok (hds : ds.Keyed) {owner : String} (hne : owner ≠ ns) (arg key : Option String)
    (targets : PointSet) :
    passValues? ds ns arg owner key targets = .ok (passValues ds ns arg targets) ∧
      Step (· = ns) ds (passValues ds ns arg targets).1 ∧
      (argsOf (passValues ds ns arg targets).1 ns).keys = (argsOf ds ns).keys := by
  unfold passValues? passValues
  split_ifs
  · exact ⟨rfl, .refl, rfl⟩
  · refine through_ok (I := fun t : Definitions × Bool =>
        Step (· = ns) ds t.1 ∧ (argsOf t.1 ns).keys = (argsOf ds ns).keys)
      (fun target _ t ⟨ht, hkeys⟩ => ?_) ⟨.refl, rfl⟩
    obtain ⟨hrun, hstep, hnames⟩ := passTarget?_ok (ht.keyed hds) ns arg target
    refine ⟨hrun, ?_, ht.trans hstep, hnames.trans hkeys⟩
    rw [valuesOf_eq, valuesOf_eq, hstep.others owner hne]

lemma passArgument_new (hd : s.defs.get? ns = some d) (ht : s.defs.get? target = some t)
    (hk : t.name.arg? (keyOf d t arg) = none) :
    ∃ name : NamePointer, name.points = t.name.points ∧
      passArgument ns target s arg =
      { s with defs := s.defs.adjustAt target ({ · with name }) } := by
  unfold keyOf at hk
  unfold passArgument
  rw [hd, ht]
  dsimp only
  cases hp : d.name.positions.get? arg with
  | none =>
    simp only [hp] at hk
    simp only [hk]
    exact ⟨t.name.addArgSet arg (d.name.args.getD arg {}), rfl, rfl⟩
  | some pos =>
    simp only [hp] at hk
    simp only [NamePointer.posArgAt?, hk]
    exact ⟨(t.name.setPos pos _).addArgSet (some _) _, rfl, rfl⟩

lemma passArgument_known {targets : PointSet} (hd : s.defs.get? ns = some d)
    (ht : s.defs.get? target = some t) (hk : t.name.arg? (keyOf d t arg) = some targets) :
    passArgument ns target s arg = changedBy s target (passValues s.defs ns arg targets) := by
  unfold keyOf at hk
  unfold passArgument
  rw [hd, ht]
  dsimp only
  cases hp : d.name.positions.get? arg with
  | none =>
    simp only [hp] at hk
    simp only [hk, changedBy]
  | some pos =>
    simp only [hp] at hk
    simp only [NamePointer.posArgAt?, hk, changedBy]

lemma passArgument?_ok (hs : s.defs.Keyed) (hne : target ≠ ns) (hns : s.defs.contains ns)
    (htarget : s.defs.contains target) (arg : Option String) :
    passArgument? ns target s arg = .ok (passArgument ns target s arg) ∧
      Step Any s.defs (passArgument ns target s arg).defs ∧
      (argsOf (passArgument ns target s arg).defs ns).keys = (argsOf s.defs ns).keys ∧
      ∀ x ∈ (passArgument ns target s arg).next, x = target ∨ x ∈ s.next := by
  obtain ⟨d, hd⟩ := contains_iff.mp hns
  obtain ⟨t, ht⟩ := contains_iff.mp htarget
  have hrun : passArgument? ns target s arg = handOver? ns target s arg d t := by
    unfold passArgument?
    rw [hd, ht]
    dsimp only
    cases hp : d.name.positions.get? arg with
    | none => rfl
    | some pos =>
      dsimp only
      rw [pos.readable]
      rfl
  rw [hrun, handOver?]
  cases hk : t.name.arg? (keyOf d t arg) with
  | none =>
    obtain ⟨name, hpoints, heq⟩ := passArgument_new hd ht hk
    rw [heq]
    have hstep : Step (· = target) s.defs (s.defs.adjustAt target ({ · with name })) := by
      refine step_adjustAt fun e he => ?_
      obtain rfl : t = e := Option.some.inj (ht.symm.trans he)
      exact extended_name _ _ t hpoints
    refine ⟨rfl, hstep.mono fun _ _ => trivial, ?_, fun _ => .inr⟩
    rw [hstep.others ns (Ne.symm hne)]
  | some targets =>
    obtain ⟨hvalues, hstep, hkeys⟩ := passValues?_ok hs hne arg (keyOf d t arg) targets
    dsimp only
    rw [passArgument_known hd ht hk, hvalues]
    refine ⟨rfl, hstep.mono fun _ _ => trivial, hkeys, fun x hx => ?_⟩
    unfold changedBy at hx
    dsimp only at hx
    split_ifs at hx
    · exact List.mem_insertEnd_iff.mp hx
    · exact .inr hx

/-- The rounds have made only steps of completion, and know what to look at next. -/
structure Rounds.Sound (ds : Definitions) (s : Rounds) : Prop where
  completes : Completes ds s.defs
  next : ∀ n ∈ s.next, ds.contains n = true

lemma passArguments?_ok (hds : ds.Keyed) (hs : s.Sound ds) (hns : ds.contains ns) :
    passArguments? s ns = .ok (passArguments s ns) ∧ (passArguments s ns).Sound ds := by
  obtain ⟨d, hd⟩ := contains_iff.mp ((hs.completes.contains_eq ns).trans hns)
  have hkeys : (argsOf s.defs ns).keys = d.name.args.keys := by
    rw [argsOf, hd]
    rfl
  unfold passArguments? passArguments
  rw [hd]
  refine And.imp_right And.left (through_ok
    (I := fun t : Rounds => t.Sound ds ∧ (argsOf t.defs ns).keys = d.name.args.keys)
    (fun target _ t ⟨ht, hargs⟩ => ?_) ⟨hs, hkeys⟩)
  split_ifs with hskip
  · exact ⟨rfl, rfl, ht, hargs⟩
  · obtain ⟨hne, hknown⟩ := not_skipped.mp hskip
    rw [hargs]
    refine And.imp_right (fun h => ⟨rfl, h⟩) (through_ok
      (I := fun t : Rounds => t.Sound ds ∧ (argsOf t.defs ns).keys = d.name.args.keys)
      (fun arg _ u ⟨hu, hargs⟩ => ?_) ⟨ht, hargs⟩)
    have htarget : ds.contains target := (ht.completes.contains_eq target).symm.trans hknown
    obtain ⟨hrun, hstep, hsame, hnext⟩ := passArgument?_ok (hu.completes.keyed hds) hne
      ((hu.completes.contains_eq ns).trans hns)
      ((hu.completes.contains_eq target).trans htarget) arg
    refine ⟨hrun, ?_, ⟨hu.completes.trans hstep.toCompletes, fun n hn => ?_⟩, hsame.trans hargs⟩
    · rw [← length_keys, ← length_keys, hsame]
    · rcases hnext n hn with rfl | hn
      · exact htarget
      · exact hu.next n hn

lemma rounds?_ok {order : Nat → Names → Names} (horder : ∀ n w, (order n w).Perm w) (n : Nat)
    {work : Names} (hds : ds.Keyed) (hwork : ∀ ns ∈ work, ds.contains ns) :
    ∃ out, rounds? order n work ds = .ok out ∧ Completes ds out ∧
      ((∀ n w, order n w = w) → out = rounds n work ds) := by
  induction n generalizing work ds with
  | zero => exact ⟨ds, rfl, .refl ds, fun _ => rfl⟩
  | succ n ih =>
    obtain ⟨hrun, hround⟩ := through_ok (m := fun _ => 0) (I := Rounds.Sound ds)
      (fun ns hns s hs => And.imp_right (fun h => ⟨rfl, h⟩)
        (passArguments?_ok hds hs (hwork ns ((horder n work).mem_iff.mp hns))))
      (s := { defs := ds }) ⟨.refl ds, nofun⟩
    have hsame (hid : ∀ n w, order n w = w) : rounds (n + 1) work ds =
        let s := (order n work).foldl passArguments { defs := ds }
        if s.next.isEmpty then s.defs else rounds n s.next s.defs := by
      rw [hid, rounds]
    generalize (order n work).foldl passArguments { defs := ds } = s at hrun hround hsame
    have hnext : rounds? order (n + 1) work ds =
        if s.next.isEmpty then .ok s.defs else rounds? order n s.next s.defs := by
      rw [rounds?, hrun]
      rfl
    rw [hnext]
    by_cases hdone : s.next.isEmpty
    · rw [if_pos hdone]
      refine ⟨s.defs, rfl, hround.completes, fun hid => ?_⟩
      exact ((hsame hid).trans (if_pos hdone)).symm
    · rw [if_neg hdone]
      obtain ⟨out, hout, hcompletes, heq⟩ := ih (hround.completes.keyed hds)
        fun ns hns => (hround.completes.contains_eq ns).trans (hround.next ns hns)
      refine ⟨out, hout, hround.completes.trans hcompletes, fun hid => ?_⟩
      exact (heq hid).trans ((hsame hid).trans (if_neg hdone)).symm

/-- Completion comes to its end for every table and in every order of the definitions. Every
namespace keeps its definition, which gets to point only to others of the table. -/
theorem completes_in_every_order : (∀ ops, (run ops {}).Keyed) ∧
      ∀ ds : Definitions, ds.Keyed → ∀ order : Nat → Names → Names, (∀ n w, (order n w).Perm w) →
        ∃ out, complete? order ds = .ok out ∧ Completes ds out ∧
          ((∀ n w, order n w = w) → out = ds.complete) := by
  refine ⟨fun ops => (keeps_of_moves (moves_run ops {}) nofun).1, fun _ hds _ horder => ?_⟩
  exact rounds?_ok horder _ hds fun _ hns => Table.mem_keys_iff.mp hns

/-- The value `p` of an argument goes to `q`, which is a value of the same argument in `b`. -/
def handingOn : List Op :=
  [.var "a", .var "b", .var "p", .var "q",
    .addName { ns := "a" } (.str "b"), .addPosArg { ns := "a" } (.int 0) (some "x") (.name "p"),
    .addPosArg { ns := "b" } (.int 0) (some "y") (.name "q")]

theorem completes_handingOn : (run handingOn {}).Keyed ∧ (∀ w : Names, w.reverse.Perm w) ∧
    ∃ out, complete? (fun _ w => w.reverse) (run handingOn {}) = .ok out ∧
      Completes (run handingOn {}) out ∧ (out.get? "q").map (·.name.points.names) = some ["p"] := by
  have hkeyed := completes_in_every_order.1 handingOn
  obtain ⟨out, hout, hcompletes, -⟩ :=
    completes_in_every_order.2 _ hkeyed (fun _ w => w.reverse) fun _ w => w.reverse_perm
  have hq : (complete? (fun _ w => w.reverse) (run handingOn {})).toOption.bind
      (fun ds => (ds.get? "q").map (·.name.points.names)) = some ["p"] := by rfl
  rw [hout] at hq
  exact ⟨hkeyed, fun w => w.reverse_perm, out, hout, hcompletes, hq⟩

end Definitions

end SinkTrace
