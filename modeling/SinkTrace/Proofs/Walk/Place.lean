import SinkTrace.Proofs.Scope
import SinkTrace.Proofs.Walk.Meaning

/-!
# Places of a walk

A walk is at a place: inside some blocks, some of which are functions and some classes. What the
walk does at one place is compared here with what another one does there. `AlikeAt` says that two
actions do the same at a place, and that they keep the place and an invariant.

Between its visits a walk takes steps aside, which keep the place. An invariant that stands these
steps, and the changes of place and of numbering at the edges of blocks, is `Tolerant`.
-/

namespace SinkTrace

open Walk List

variable {name : String}

/-- The blocks around, with those of functions and of classes. A loose place does not count
outermost blocks with empty names. -/
structure Place where
  names : List String := []
  methods : List String := []
  classes : List String := []
  loose : Bool := false

namespace Place

def ofFrame (f : Frame) : Place := { names := f.names, methods := f.methods, classes := f.classes }

def inBlock (p : Place) (name : String) : Place := { p with names := p.names ++ [name] }

def inFunction (p : Place) (name : String) : Place :=
  { p.inBlock name with methods := p.methods ++ [name] }

def inClass (p : Place) (name : String) : Place :=
  { p.inFunction name with classes := p.classes ++ [name] }

def Holds (p q : Place) : Prop :=
  ∃ name, q = p.inBlock name ∨ q = p.inFunction name ∨ q = p.inClass name

lemma holds_inBlock (p : Place) : p.Holds (p.inBlock name) := ⟨name, .inl rfl⟩

lemma holds_inFunction (p : Place) : p.Holds (p.inFunction name) := ⟨name, .inr (.inl rfl)⟩

lemma holds_inClass (p : Place) : p.Holds (p.inClass name) := ⟨name, .inr (.inr rfl)⟩

lemma Holds.loose_eq {p q : Place} (h : p.Holds q) : q.loose = p.loose := by
  obtain ⟨name, rfl | rfl | rfl⟩ := h <;> rfl

/-- The frame is at the place. At a loose one it may leave out blocks. -/
structure At (p : Place) (f : Frame) : Prop where
  names : ∃ k, (∀ n ∈ p.names.take k, p.loose = true ∧ n = "") ∧ f.names = p.names.drop k
  methods : f.methods = p.methods
  classes : f.classes = p.classes

variable {p : Place} {f : Frame}

lemma at_of_eq (hnames : f.names = p.names) (hmethods : f.methods = p.methods)
    (hclasses : f.classes = p.classes) : p.At f := ⟨⟨0, nofun, hnames⟩, hmethods, hclasses⟩

lemma At.names_eq (h : p.At f) (hp : p.loose → p.names.head? ≠ some "") : f.names = p.names := by
  obtain ⟨k, hk, hnames⟩ := h.names
  rw [hnames]
  rcases hlist : p.names with _ | ⟨n, ns⟩
  · simp
  · cases k with
    | zero => rfl
    | succ k =>
      obtain ⟨hloose, hn⟩ := hk n (by simp [hlist])
      simp [hlist, hn, hloose] at hp

lemma At.names_of_dotted (h : p.At f) (hdotted : Text.dotted f.names = "") :
    ∀ n ∈ p.names, n = "" := by
  obtain ⟨k, hk, hnames⟩ := h.names
  rw [hnames] at hdotted
  intro n hn
  rw [← take_append_drop k p.names, mem_append] at hn
  refine hn.elim (fun hn => (hk n hn).2) fun hn => ?_
  rcases hlist : p.names.drop k with _ | ⟨a, _ | ⟨b, bs⟩⟩
  · simp [hlist] at hn
  · rw [hlist] at hdotted hn
    rw [mem_singleton.mp hn]
    exact hdotted
  · rw [hlist] at hdotted
    have hlength := congrArg String.length hdotted
    simp [Text.dotted, String.intercalate_cons_cons] at hlength

lemma At.push (h : p.At f) : ∃ k, (∀ n ∈ (p.names ++ [name]).take k, p.loose ∧ n = "") ∧
      f.names ++ [name] = (p.names ++ [name]).drop k := by
  obtain ⟨k, hk, hnames⟩ := h.names
  rcases Nat.lt_or_ge p.names.length k with hlt | hle
  · refine ⟨p.names.length, ?_, ?_⟩
    · rw [take_of_length_le (Nat.le_of_lt hlt)] at hk
      simpa using hk
    · rw [hnames, drop_of_length_le (Nat.le_of_lt hlt)]
      simp
  · refine ⟨k, ?_, ?_⟩
    · rwa [take_append_of_le_length hle]
    · rw [hnames, drop_append_of_le_length hle]

lemma drop_dropLast {names : List String} {k : Nat} {P : String → Prop}
    (hk : ∀ n ∈ (names ++ [name]).take k, P n) :
    ∃ j, (∀ n ∈ names.take j, P n) ∧ ((names ++ [name]).drop k).dropLast = names.drop j := by
  refine ⟨k, fun n hn => hk n ?_, ?_⟩
  · rw [take_append]
    exact mem_append_left _ hn
  · rcases Nat.lt_or_ge names.length k with hlt | hle
    · rw [drop_of_length_le (by simp; omega), drop_of_length_le (Nat.le_of_lt hlt)]
      rfl
    · rw [drop_append_of_le_length hle, dropLast_concat]

end Place

namespace Walk

open Act Place

variable {ρ α : Type} {X : World → World → Prop} {a b : Roam ρ α} {f : Frame → Frame}

/-! ### Steps aside -/

/-- A step that leaves the place, the module and what is analysed as they are. The world changes as
`X` says. -/
structure Aside (X : World → World → Prop) (s t : Walk ρ) : Prop where
  frame : ∃ lastCalled closes lost, t.frame = { s.frame with lastCalled, closes, lost }
  world : X s.world t.world

lemma Aside.at {s t : Walk ρ} (h : Aside X s t) {p : Place} (hs : p.At s.frame) : p.At t.frame := by
  obtain ⟨_, _, _, hframe⟩ := h.frame
  obtain ⟨hnames, hmethods, hclasses⟩ := hs
  constructor
  · rwa [hframe]
  · rwa [hframe]
  · rwa [hframe]

lemma Aside.trans (hX : ∀ w w' w'', X w w' → X w' w'' → X w w'') {s t u : Walk ρ} (h : Aside X s t)
    (h' : Aside X t u) : Aside X s u := by
  obtain ⟨_, _, _, hframe⟩ := h.frame
  obtain ⟨lastCalled, closes, lost, hframe'⟩ := h'.frame
  refine ⟨⟨lastCalled, closes, lost, ?_⟩, hX _ _ _ h.world h'.world⟩
  rw [hframe', hframe]

lemma aside_of_world {s t : Walk ρ} (hframe : t.frame = s.frame) (hworld : X s.world t.world) :
    Aside X s t := ⟨⟨_, _, _, hframe⟩, hworld⟩

/-! ### Invariants -/

abbrev Here (p : Place) (I : Walk ρ → Prop) (s : Walk ρ) : Prop := p.At s.frame ∧ I s

/-- Two actions do the same at a place; they keep the place and `I`. If they fail, they fail with
`E`. -/
abbrev AlikeAt (E I : Walk ρ → Prop) (p : Place) (a b : Roam ρ α) : Prop :=
  Alike E (fun s => p.At s.frame ∧ I s) (fun s => p.At s.frame ∧ I s) a b

/-- The action keeps the place and `I`. If it fails, it fails with `E`. -/
abbrev UpholdsAt (E I : Walk ρ → Prop) (p : Place) (a : Roam ρ α) : Prop :=
  Upholds E (fun s => p.At s.frame ∧ I s) (fun s => p.At s.frame ∧ I s) a

/-- Only what the scope of a namespace counts is changed. -/
def Recounts (ss : Scopes) (ns : String) (f : Scope → Scope) : Prop :=
  ∀ scope, ss.get? ns = some scope → (f scope).parent = scope.parent ∧ (f scope).defs = scope.defs

def Moves (I : Walk ρ → Prop) : Prop :=
  ∀ s names methods classes, I s → I { s with frame := { s.frame with names, methods, classes } }

variable {E I J : Walk ρ → Prop} {p : Place}

/-! ### Blocks -/

lemma Moves.turn (hI : Moves I) {q : Place}
    (hf : ∀ g, ∃ names methods classes, f g = { g with names, methods, classes })
    (hat : ∀ g, p.At g → q.At (f g)) : Alike E (Here p I) (Here q I) (mapFrame f) (mapFrame f) := by
  rintro s ⟨hp, hs⟩
  refine ⟨rfl, hat s.frame hp, ?_⟩
  obtain ⟨names, methods, classes, hframe⟩ := hf s.frame
  have hmoved := hI s names methods classes hs
  rw [← hframe] at hmoved
  exact hmoved

lemma alike_inBlock (hI : Moves I) (hJ : Moves J) (name : String)
    (h : Alike E (Here (p.inBlock name) I) (Here (p.inBlock name) J) a b) :
    Alike E (Here p I) (Here p J) (inBlock name a) (inBlock name b) := by
  refine (hI.turn (fun _ => ⟨_, _, _, rfl⟩) fun g hg => ?_).bind fun _ => h.bind fun _ =>
    (hJ.turn (fun _ => ⟨_, _, _, rfl⟩) fun g hg => ?_).bind fun _ => .pure _
  · exact ⟨hg.push, hg.methods, hg.classes⟩
  · obtain ⟨k, hk, hnames⟩ := hg.names
    obtain ⟨j, hj, hdrop⟩ := drop_dropLast hk
    exact ⟨⟨j, hj, (congrArg dropLast hnames).trans hdrop⟩, hg.methods, hg.classes⟩

lemma alike_inFunction (hI : Moves I) (hJ : Moves J) (name : String)
    (h : Alike E (Here (p.inFunction name) I) (Here (p.inFunction name) J) a b) :
    Alike E (Here p I) (Here p J) (inFunction name a) (inFunction name b) := by
  let q : Place := { p with methods := p.methods ++ [name] }
  have hblock := alike_inBlock (p := q) hI hJ name h
  refine (hI.turn (fun _ => ⟨_, _, _, rfl⟩) fun g hg => ?_).bind fun _ => hblock.bind fun _ =>
    (hJ.turn (fun _ => ⟨_, _, _, rfl⟩) fun g hg => ?_).bind fun _ => .pure _
  · exact ⟨hg.names, congrArg (· ++ [name]) hg.methods, hg.classes⟩
  · exact ⟨hg.names, (congrArg dropLast hg.methods).trans dropLast_concat, hg.classes⟩

lemma alike_inClass (hI : Moves I) (hJ : Moves J) (name : String)
    (h : Alike E (Here (p.inClass name) I) (Here (p.inClass name) J) a b) :
    Alike E (Here p I) (Here p J) (inClass name a) (inClass name b) := by
  let q : Place := { p with classes := p.classes ++ [name] }
  have hfunction := alike_inFunction (p := q) hI hJ name h
  refine (hI.turn (fun _ => ⟨_, _, _, rfl⟩) fun g hg => ?_).bind fun _ => hfunction.bind fun _ =>
    (hJ.turn (fun _ => ⟨_, _, _, rfl⟩) fun g hg => ?_).bind fun _ => .pure _
  · exact ⟨hg.names, hg.methods, congrArg (· ++ [name]) hg.classes⟩
  · exact ⟨hg.names, hg.methods, (congrArg dropLast hg.classes).trans dropLast_concat⟩

/-! ### Invariants that stand a walk -/

/-- The invariant `I` stands steps aside and changes of place, and at `D` other numbers. It entails
`E`. -/
structure Tolerant (X : World → World → Prop) (D : List String → Prop) (E I : Walk ρ → Prop) :
    Prop where
  refl : ∀ w, X w w
  create : ∀ (w : World) ns parent, X w { w with scopes := w.scopes.create ns parent }
  step : Stable I (Aside X)
  fails : ∀ s, I s → E s
  move : Moves I
  deeper : ∀ names name, D names → D (names ++ [name])
  renumber : ∀ (p : Place) s f, D p.names → p.At s.frame →
    Recounts s.world.scopes (Text.dotted s.frame.names) f → I s →
    I { s with world := { s.world with
      scopes := s.world.scopes.modify (Text.dotted s.frame.names) f } }

variable {D : List String → Prop}

namespace Tolerant

variable (hI : Tolerant X D E I) {e : Fault}

include hI

lemma throws : Alike E (Here p I) J (throw e : Roam ρ α) (throw e) :=
  .throw (fun s hs => hI.fails s hs.2) e

lemma aside (ha : Leads (Aside X) a) : AlikeAt E I p a a := by
  refine .of_leads ha ?_ fun s hs => hI.fails s hs.2
  rintro s t ⟨hat, hs⟩ hst
  exact ⟨hst.at hat, hI.step s t hs hst⟩

lemma leads (ha : Leads (Aside X) a) : UpholdsAt E I p a := (hI.aside ha).upholds

lemma fault : UpholdsAt E I p (throw e : Roam ρ α) := hI.throws.upholds

lemma reads (ha : Reads a) : AlikeAt E I p a a := hI.aside ha.leads

lemma need {v : Option α} : AlikeAt E I p (Act.need e v) (Act.need e v) := hI.aside .need

lemma mapOwn {f : ρ → ρ} : AlikeAt E I p (mapOwn f) (mapOwn f) :=
  hI.aside fun s => .single ⟨⟨_, _, _, rfl⟩, hI.refl s.world⟩

lemma mapFrame (h : ∀ g, ∃ lastCalled closes lost, f g = { g with lastCalled, closes, lost }) :
    AlikeAt E I p (mapFrame f) (mapFrame f) :=
  hI.aside fun s => .single ⟨h s.frame, hI.refl s.world⟩

lemma createScope {ns : String} {parent : Option String} :
    AlikeAt E I p (mapWorld (World.mapScopes (·.create ns parent)))
      (mapWorld (World.mapScopes (·.create ns parent))) :=
  hI.aside fun s => .single (aside_of_world rfl (hI.create s.world ns parent))

lemma inBlock (h : AlikeAt E I (p.inBlock name) a b) :
    AlikeAt E I p (inBlock name a) (inBlock name b) := alike_inBlock hI.move hI.move name h

lemma inFunction (name : String) (h : AlikeAt E I (p.inFunction name) a b) :
    AlikeAt E I p (inFunction name a) (inFunction name b) := alike_inFunction hI.move hI.move name h

lemma inClass (name : String) (h : AlikeAt E I (p.inClass name) a b) :
    AlikeAt E I p (inClass name a) (inClass name b) := alike_inClass hI.move hI.move name h

end Tolerant

end Walk

end SinkTrace
