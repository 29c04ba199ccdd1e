import SinkTrace.Proofs.Sink.Growth
import SinkTrace.World

/-!
# Methods and the blocks around them

A method that leads to a sink is looked for inside the blocks around it, so these have to lead to
the sink too. `Sound` says that they do, but for stray methods: those that a rule brings by name,
without a look at where they are defined. It also says what the entries of the register stand for. A
world that has grown has the stray methods that it had, and soundness of a step is a matter of the
methods and entries that are new.
-/

namespace SinkTrace

open Table

variable {name : String}

namespace Modules

def noted (ms : Modules) (mod method : String) : List String :=
  ((ms.get? mod).map fun m => m.callers.getD method []).getD []

def Remembers (ms ms' : Modules) : Prop := ∀ X x, ∀ c ∈ ms.noted X x, c ∈ ms'.noted X x

variable {ms ms' ms'' : Modules}

lemma Remembers.refl : Remembers ms ms := fun _ _ _ hc => hc

lemma Remembers.trans (h : Remembers ms ms') (h' : Remembers ms' ms'') : Remembers ms ms'' :=
  fun X x c hc => h' X x c (h X x c hc)

lemma remembers_of_get? (h : ∀ X m, ms.get? X = some m → ∃ m', ms'.get? X = some m' ∧
    ∀ x, ∀ c ∈ m.callers.getD x [], c ∈ m'.callers.getD x []) : Remembers ms ms' := by
  intro X x c hc
  unfold noted at hc ⊢
  cases hX : ms.get? X with
  | none =>
    rw [hX] at hc
    cases hc
  | some m =>
    rw [hX] at hc
    obtain ⟨m', hm', hcallers⟩ := h X m hX
    rw [hm']
    exact hcallers x c hc

variable {f : ModuleInfo → ModuleInfo}
  (hf : ∀ m x, ∀ c ∈ m.callers.getD x [], c ∈ (f m).callers.getD x [])

include hf

lemma remembers_modifyInner : Remembers ms { ms with inner := ms.inner.modify name f } := by
  refine remembers_of_get? fun X m hm => ?_
  by_cases hX : X = name
  · subst hX
    cases hinner : ms.inner.get? X with
    | none =>
      refine ⟨m, ?_, fun _ _ => id⟩
      simpa [get?, get?_modify, hinner] using hm
    | some n =>
      obtain rfl : n = m := by simpa [get?, hinner] using hm
      refine ⟨f n, ?_, hf n⟩
      simp [get?, get?_modify, hinner]
  · refine ⟨m, ?_, fun _ _ => id⟩
    simpa [get?, get?_modify, hX] using hm

lemma remembers_adjust : Remembers ms (ms.adjust name f) := by
  unfold adjust
  split_ifs with hcontains
  · exact remembers_modifyInner hf
  · refine remembers_of_get? fun X m hm => ?_
    by_cases hX : X = name
    · subst hX
      have hinner := not_contains_iff.mp (Bool.eq_false_iff.mpr hcontains)
      have houter : ms.outer.get? X = some m := by simpa [get?, hinner] using hm
      refine ⟨f m, ?_, hf m⟩
      simp [get?, get?_modify, hinner, houter]
    · refine ⟨m, ?_, fun _ _ => id⟩
      simpa [get?, get?_modify, hX] using hm

omit hf

lemma remembers_create (h : ms.get? name = none) {filename : Option String} :
    Remembers ms (ms.create name filename false) := by
  refine remembers_of_get? fun X m hm => ⟨m, ?_, fun _ _ => id⟩
  have hX : X ≠ name := fun heq => by simp [heq, h] at hm
  simpa [create, get?, get?_set, hX] using hm

end Modules

namespace World

open Sinks

variable {X e k method x : String}

/-! ### Stray methods -/

/-- The names under which the register is asked for a method. -/
def lookups (method : String) : List String :=
  [method, method ++ "-l", Text.replace method ".__init__" ""]

/-- The register may answer with the second method when it is asked for the first. -/
def SharesEntry (method other : String) : Prop :=
  ∃ k ∈ lookups method, k = other ∨ k = other ++ "-l"

def calleesOf (w : World) (mod method : String) : Names :=
  ((w.sinks.links? mod method).map fun l => w.sinks.setOf l.callees).getD []

/-- The name is that of a constructor, or one that the register gives in full. -/
def MadeFrom (w : World) (name : String) : Prop :=
  Text.endsWith name "__init__" = true ∨ ∃ mod k, mod ++ "@" ++ name ∈ w.sinks.entries k

/-- The ways in which a method of a module can come to lead to a sink without the block around
it. -/
inductive Stray (w : World) (mod method : String) : Prop
  /-- It calls a sink itself. -/
  | site {methods : NameTable} (hroot : w.sinks.roots.get? mod = some methods)
      (hmethod : methods.contains method = true)
  /-- It is noted as a caller in its module. -/
  | caller {callee : String} (h : method ∈ w.modules.noted mod callee)
  /-- It is noted as a caller through `super`. -/
  | superCaller {other callee : String} (h : mod ++ "@" ++ method ∈ w.modules.noted other callee)
  /-- It makes an object of its own class. -/
  | maker {callee name : String} (hcallee : callee ++ ":" ++ name ∈ w.calleesOf mod method)
      (hname : w.MadeFrom name)
  /-- Another method that the register cannot tell from it leads to a sink. -/
  | namesake {other name : String} (hne : (other, name) ≠ (mod, method))
      (hname : SharesEntry method name) (h : w.sinks.HasMethod other name)
  /-- There is a module whose name looks like a full name of a method. -/
  | marked {part name : String} (hnode : (w.sinks.node? (part ++ "@" ++ name)).isSome = true)
      (h : method = name ∨ mod = part ++ "@" ++ name)

def Enclosed (w : World) (mod method : String) : Prop :=
  ∀ outer, Around method outer → w.sinks.HasMethod mod outer

/-- What an entry of the register stands for: a method of the module, by its own or its full
name. -/
def Registered (w : World) (k e : String) : Prop :=
  (∃ method, (k = method ∨ k = method ++ "-l") ∧ w.sinks.HasMethod e method) ∨
    ∃ mod method, e = mod ++ "@" ++ method ∧ '.' ∉ k.toList ∧ w.sinks.HasMethod mod method

/-- Every method that leads to a sink is in a block that does, or stray, or among those of `but`. -/
structure Sound (but : String → String → Prop) (w : World) : Prop where
  methods : ∀ X x, w.sinks.HasMethod X x → but X x ∨ w.Enclosed X x ∨ w.Stray X x
  entries : ∀ k, ∀ e ∈ w.sinks.entries k, w.Registered k e
  rows : ∀ k, w.sinks.potentMethods.contains k = true → ∃ e, e ∈ w.sinks.entries k
  sources : ∀ X n, w.sinks.node? X = some n → PlainSource X n.callers
  fresh : ∀ X x, ¬ w.sinks.Analyzed X x
  orderly : w.sinks.Orderly

/-! ### Growth -/

/-- The sinks have grown, and so have the notes on callers. -/
structure Grows (w w' : World) : Prop where
  sinks : Extends (fun _ _ => True) (fun _ _ => True) w.sinks w'.sinks
  noted : w.modules.Remembers w'.modules

variable {w w' w'' : World} {but but' : String → String → Prop} {K T : String → String → Prop}

lemma Grows.refl : Grows w w := ⟨.refl _, .refl⟩

lemma Grows.trans (h : Grows w w') (h' : Grows w' w'') : Grows w w'' where
  sinks := h.sinks.trans h'.sinks
  noted := h.noted.trans h'.noted

lemma grows_of_extends (h : Extends K T w.sinks w'.sinks)
    (hnoted : w.modules.Remembers w'.modules) : Grows w w' :=
  ⟨h.mono (fun _ _ _ => trivial) fun _ _ _ => trivial, hnoted⟩

lemma Grows.calleesOf (h : Grows w w') {c : String} (hc : c ∈ w.calleesOf X x) :
    c ∈ w'.calleesOf X x ∨ ∃ N, N ≠ X ∧ w'.sinks.HasMethod N x := by
  unfold World.calleesOf at hc ⊢
  cases hl : w.sinks.links? X x with
  | none =>
    rw [hl] at hc
    cases hc
  | some l =>
    rw [hl] at hc
    refine (h.sinks.callees X x l hl).imp_left fun ⟨l', hl', hid⟩ => ?_
    rw [hl', Option.map_some, Option.getD_some, hid]
    exact h.sinks.sets _ _ hc

lemma sharesEntry_self : SharesEntry method method := ⟨method, List.mem_cons_self, .inl rfl⟩

lemma Grows.madeFrom (h : Grows w w') (hname : w.MadeFrom name) : w'.MadeFrom name :=
  hname.imp_right fun ⟨mod, k, he⟩ => ⟨mod, k, h.sinks.entries k _ he⟩

lemma Grows.stray (h : Grows w w') (hstray : w.Stray X x) : w'.Stray X x := by
  cases hstray with
  | site hroot hmethod => exact .site (by rwa [h.sinks.roots]) hmethod
  | caller hc => exact .caller (h.noted _ _ _ hc)
  | superCaller hc => exact .superCaller (h.noted _ _ _ hc)
  | maker hcallee hname =>
    rcases h.calleesOf hcallee with hcallee | ⟨N, hN, hx⟩
    · exact .maker hcallee (h.madeFrom hname)
    · exact .namesake (fun heq => hN (Prod.mk.inj heq).1) sharesEntry_self hx
  | namesake hne hname hother => exact .namesake hne hname (h.sinks.methods _ _ hother)
  | marked hnode hmark => exact .marked (h.sinks.nodes _ hnode) hmark

lemma Grows.enclosed (h : Grows w w') (henclosed : w.Enclosed X x) : w'.Enclosed X x :=
  fun outer houter => h.sinks.methods _ _ (henclosed outer houter)

lemma Grows.registered (h : Grows w w') (he : w.Registered k e) : w'.Registered k e :=
  he.imp (fun ⟨method, hk, hm⟩ => ⟨method, hk, h.sinks.methods _ _ hm⟩)
    fun ⟨mod, method, heq, hk, hm⟩ => ⟨mod, method, heq, hk, h.sinks.methods _ _ hm⟩

/-- A step keeps the world sound if its new methods are enclosed or stray and its new entries stand
for something. -/
lemma Sound.step (hsound : Sound but w) (h : Extends K T w.sinks w'.sinks)
    (hnoted : w.modules.Remembers w'.modules)
    (hnew : ∀ X x, but X x ∨ K X x → w'.sinks.HasMethod X x →
      but' X x ∨ w'.Enclosed X x ∨ w'.Stray X x)
    (hentries : ∀ k e, T k e → w'.Registered k e) : Sound but' w' := by
  have hgrows : Grows w w' := grows_of_extends h hnoted
  refine ⟨fun X x hx => ?_, fun k e he => ?_, fun k hk => ?_, fun X n hn => ?_,
    fun X x hx => hsound.fresh X x (h.analyzed X x hx), h.orderly hsound.orderly⟩
  · rcases h.newMethods X x hx with hold | hX
    · rcases hsound.methods X x hold with hbut | henclosed | hstray
      · exact hnew X x (.inl hbut) hx
      · exact .inr (.inl (hgrows.enclosed henclosed))
      · exact .inr (.inr (hgrows.stray hstray))
    · exact hnew X x (.inr hX) hx
  · rcases h.newEntries k e he with hold | hT
    · exact hgrows.registered (hsound.entries k e hold)
    · exact hentries k e hT
  · rcases h.rows k hk with hold | hrow
    · obtain ⟨e, he⟩ := hsound.rows k hold
      exact ⟨e, h.entries k e he⟩
    · exact hrow
  · rcases h.sources X n hn with ⟨n₀, hn₀, heq⟩ | hplain
    · rw [heq]
      exact hsound.sources X n₀ hn₀
    · exact hplain

lemma Sound.settle (hsound : Sound but w) (h : Settles w.sinks w'.sinks)
    (hnoted : w.modules.Remembers w'.modules) : Grows w w' ∧ Sound but w' := by
  refine ⟨grows_of_extends h hnoted, hsound.step h hnoted ?_ fun _ _ => False.elim⟩
  rintro X x (hbut | hnew) _
  · exact .inl hbut
  · exact hnew.elim

lemma noted_of_plain {ms : Modules} {source : CallerSource} (hplain : PlainSource X source)
    {caller : String} (h : caller ∈ (callersAt ms source).getD method []) :
    caller ∈ ms.noted X method := by
  rcases hplain with rfl | rfl
  · cases h
  · change caller ∈ (((ms.get? X).map ModuleInfo.callers).getD {}).getD method [] at h
    unfold Modules.noted
    cases hm : ms.get? X with
    | none =>
      rw [hm] at h
      cases h
    | some m =>
      rw [hm] at h
      exact h

/-! ### Names that the register stands for -/

/-- The method is there, or may come without harm. -/
def Known (w : World) (X x : String) : Prop := w.sinks.HasMethod X x ∨ w.Enclosed X x ∨ w.Stray X x

lemma Grows.known (h : Grows w w') (hknown : w.Known X x) : w'.Known X x :=
  hknown.imp (h.sinks.methods X x) (Or.imp h.enclosed h.stray)

lemma known_of_sharesEntry {Y y : String} (hshares : SharesEntry x y) (hy : w.sinks.HasMethod Y y) :
    w.Known X x := by
  by_cases heq : (Y, y) = (X, x)
  · obtain ⟨rfl, rfl⟩ := Prod.mk.inj heq
    exact .inl hy
  · exact .inr (.inr (.namesake heq hshares hy))

lemma Sound.known_of_entry (hsound : Sound but w) (hk : k ∈ lookups method)
    (he : e ∈ w.sinks.entries k) (hplain : '@' ∉ e.toList) (X : String) : w.Known X method := by
  rcases hsound.entries k e he with ⟨other, hother, hmethod⟩ | ⟨mod, name, rfl, -, -⟩
  · exact known_of_sharesEntry ⟨k, hk, hother⟩ hmethod
  · exact absurd (by simp) hplain

lemma Sound.known_of_fullName (hsound : Sound but w) {mod : String}
    (he : mod ++ "@" ++ method ∈ w.sinks.entries k) (hmod : '@' ∉ mod.toList)
    (hmethod : '@' ∉ method.toList) (X : String) : w.Known X method := by
  rcases hsound.entries k _ he with ⟨other, -, hother⟩ | ⟨mod', method', heq, -, hmethod'⟩
  · obtain ⟨n, hn⟩ := hother.node
    exact .inr (.inr (.marked (by rw [hn]; rfl) (.inl rfl)))
  · obtain ⟨rfl, rfl⟩ := Text.append_mark_inj rfl hmod hmethod heq
    exact known_of_sharesEntry sharesEntry_self hmethod'

lemma Sound.known_of_row (hsound : Sound but w) (hrow : w.sinks.potentMethods.contains method)
    (hdot : '.' ∈ method.toList) (X : String) : w.Known X method := by
  obtain ⟨e, he⟩ := hsound.rows method hrow
  rcases hsound.entries method e he with ⟨other, hother, hmethod⟩ | ⟨_, _, -, hplain, -⟩
  · exact known_of_sharesEntry ⟨method, List.mem_cons_self, hother⟩ hmethod
  · exact absurd hdot hplain

end World

end SinkTrace
