import SinkTrace.Proofs.Walk.Survey

/-!
# Walks that keep the world sound

`Keeping` says of an action that it takes a survey and keeps a sound world sound. To keep the world
sound is relative to a world that the action comes after: what is known of that world still holds
when the action begins, as worlds only grow. On the way a method may be an exception for a while,
until the blocks around it have come too; `Brings` has these exceptions before and after the action.
It is about soundness if `C` holds, and about the survey if not, so one proof shows both.
-/

namespace SinkTrace.Walk

open Act World Sinks

variable {ρ α β : Type} {C : Prop} {but but' but'' : String → String → Prop} {w₀ : World} {c : Prop}
  {a b : Roam ρ α} {f : Sinks → Sinks} {X x : String} {as : List α} {e : Fault}

structure Brings (C : Prop) (but but' : String → String → Prop) (w₀ : World) (a : Roam ρ α) :
    Prop where
  surveying : ¬ C → Surveying a
  sound : C → ∀ s v t, a s = (.ok v, t) → Grows w₀ s.world → Sound but s.world →
    Grows s.world t.world ∧ Sound but' t.world

abbrev Keeps (C : Prop) (w₀ : World) (a : Roam ρ α) : Prop :=
  Brings C (fun _ _ => False) (fun _ _ => False) w₀ a

abbrev Only (X x : String) : String → String → Prop := fun Y y => Y = X ∧ y = x

/-! ### Rules -/

lemma Brings.bind_of {f : α → Roam ρ β} {P : α → World → Prop} (ha : Brings C but but' w₀ a)
    (hP : C → ∀ s v t, a s = (.ok v, t) → Grows w₀ s.world → Sound but s.world → P v t.world)
    (hf : ∀ v w, (C → Grows w₀ w) → (C → P v w) → Brings C but' but'' w (f v)) :
    Brings C but but'' w₀ (a >>= f) where
  surveying hC := (ha.surveying hC).bind fun v => (hf v w₀ (absurd · hC) (absurd · hC)).surveying hC
  sound hC s v u hrun hbase hsound := by
    obtain ⟨x, t, hx, hv⟩ := of_bind hrun
    obtain ⟨hgrows, hsound'⟩ := ha.sound hC s x t hx hbase hsound
    have hrest := hf x t.world (fun _ => hbase.trans hgrows) fun _ => hP hC s x t hx hbase hsound
    obtain ⟨hgrows', hsound''⟩ := hrest.sound hC t v u hv .refl hsound'
    exact ⟨hgrows.trans hgrows', hsound''⟩

lemma Brings.mono {w : World} (h : Brings C but but' w₀ a) (hw : C → Grows w₀ w) :
    Brings C but but' w a :=
  ⟨h.surveying, fun hC s v t hrun hbase => h.sound hC s v t hrun ((hw hC).trans hbase)⟩

lemma Brings.bind {f : α → Roam ρ β} (ha : Brings C but but' w₀ a)
    (hf : ∀ v, Brings C but' but'' w₀ (f v)) : Brings C but but'' w₀ (a >>= f) :=
  ha.bind_of (P := fun _ _ => True) (fun _ _ _ _ _ _ _ => trivial) fun v _ hw _ => (hf v).mono hw

lemma brings_getWorld_bind {f : World → Roam ρ α}
    (h : ∀ w, (C → Grows w₀ w) → (C → Sound but w) → Brings C but but' w (f w)) :
    Brings C but but' w₀ (getWorld >>= f) where
  surveying hC := reads_getWorld.next fun w => (h w (absurd · hC) (absurd · hC)).surveying hC
  sound hC s v t hrun hbase hsound :=
    (h s.world (fun _ => hbase) fun _ => hsound).sound hC s v t hrun .refl hsound

lemma brings_throw_bind {f : α → Roam ρ β} : Brings C but but' w₀ ((throw e : Roam ρ α) >>= f) :=
  ⟨fun _ _ => .refl, fun _ _ _ _ hrun => nomatch hrun⟩

protected lemma Brings.throw : Brings C but but' w₀ (throw e : Roam ρ α) :=
  ⟨fun _ => .throw, fun _ _ _ _ hrun => nomatch hrun⟩

lemma Noting.brings (h : Noting a) : Brings C but but w₀ a where
  surveying _ := h.surveying
  sound _ s v t hrun _ hsound := by
    have hstep := h.step s
    rw [hrun] at hstep
    exact hsound.settle hstep.world.sinks hstep.world.callers

lemma brings_of_reads (h : Reads a) : Brings C but but w₀ a := Noting.brings h.leads

lemma brings_read {f : α → Roam ρ β} (h : Reads a)
    (hf : ∀ v, Brings C but but' w₀ (f v)) : Brings C but but' w₀ (a >>= f) :=
  (brings_of_reads h).bind hf

protected lemma Brings.pure (v : α) : Brings C but but w₀ (pure v : Roam ρ α) :=
  brings_of_reads .pure

lemma brings_need {v : Option α} : Brings C but but w₀ (need e v : Roam ρ α) :=
  brings_of_reads .need

lemma brings_ite [Decidable c] (ha : c → Brings C but but' w₀ a)
    (hb : ¬ c → Brings C but but' w₀ b) : Brings C but but' w₀ (if c then a else b) := by
  split_ifs with hc
  · exact ha hc
  · exact hb hc

lemma Brings.ite [Decidable c] (ha : Brings C but but' w₀ a)
    (hb : Brings C but but' w₀ b) : Brings C but but' w₀ (if c then a else b) :=
  brings_ite (fun _ => ha) fun _ => hb

lemma Brings.when [Decidable c] {a : Roam ρ Unit} {f : Unit → Roam ρ α}
    (ha : Brings C but but w₀ a) (hf : Brings C but but' w₀ (f ())) :
    Brings C but but' w₀ (if c then a >>= f else f ()) := (ha.bind fun _ => hf).ite hf

lemma brings_check [Decidable c] {f : Unit → Roam ρ α} (hf : ¬ c → Brings C but but' w₀ (f ())) :
    Brings C but but' w₀ (if c then throw e >>= f else f ()) :=
  brings_ite (fun _ => brings_throw_bind) hf

/-! ### Loops -/

lemma brings_foldlM_of {f : β → α → Roam ρ β} {P : β → World → Prop}
    (hP : C → ∀ b w, Grows w₀ w → P b w → ∀ a ∈ as, ∀ s c t, f b a s = (.ok c, t) →
      Grows w s.world → Sound but s.world → P c t.world)
    (h : ∀ b w, (C → Grows w₀ w) → (C → P b w) → ∀ a ∈ as, Brings C but but w (f b a)) {b : β}
    (hb : C → P b w₀) : Brings C but but w₀ (as.foldlM f b) := by
  induction as generalizing b w₀ with
  | nil => exact .pure b
  | cons a as ih =>
    rw [List.foldlM_cons]
    refine (h b w₀ (fun _ => .refl) hb a List.mem_cons_self).bind_of
      (fun hC => hP hC b w₀ .refl (hb hC) a List.mem_cons_self) fun c w hw hc => ?_
    refine ih (fun hC b w' hw' hb a ha => ?_) (fun b w' hw' hb a ha => ?_) hc
    · exact hP hC b w' ((hw hC).trans hw') hb a (List.mem_cons_of_mem _ ha)
    · exact h b w' (fun hC => (hw hC).trans (hw' hC)) hb a (List.mem_cons_of_mem _ ha)

lemma brings_forM {f : α → Roam ρ Unit} (h : ∀ a ∈ as, Brings C but but w₀ (f a)) :
    Brings C but but w₀ (as.forM f) := by
  rw [forM_eq_foldlM]
  exact brings_foldlM_of (P := fun _ _ => True) (fun _ _ _ _ _ _ _ _ _ _ _ _ _ => trivial)
    (fun _ _ hw _ a ha => (h a ha).mono hw) fun _ => trivial

lemma brings_forStable {size : Walk ρ → Nat} {f : α → Roam ρ Unit}
    (h : ∀ a ∈ as, Brings C but but w₀ (f a)) : Brings C but but w₀ (forStable size f as) := by
  refine (brings_of_reads .get).bind fun s => brings_forM fun a ha => (h a ha).bind fun _ => ?_
  exact (brings_of_reads .get).bind fun t => .ite .throw (.pure _)

/-! ### Changes of the sinks -/

lemma brings_mapWorld {f : World → World} (hsurvey : ∀ w, Surveys (fun _ => False) w (f w))
    (h : C → ∀ w, Grows w₀ w → Sound but w → Grows w (f w) ∧ Sound but' (f w)) :
    Brings C but but' w₀ (mapWorld f : Roam ρ Unit) where
  surveying _ s := .single (aside_of_world rfl (hsurvey s.world))
  sound hC s v t hrun hbase hsound := by
    cases hrun
    exact h hC s.world hbase hsound

lemma brings_mapSinks
    (h : C → ∀ w, Grows w₀ w → Sound but w → Grows w (w.mapSinks f) ∧ Sound but' (w.mapSinks f)) :
    Brings C but but' w₀ (mapSinks f : Roam ρ Unit) :=
  brings_mapWorld (fun w => { Surveys.refl w with }) h

lemma brings_knownMethod_of (hknown : C → w₀.Known X x)
    (h : C → ∀ w, Grows w₀ w → Extends (Only X x) (fun _ _ => False) w.sinks (f w.sinks)) :
    Brings C but but w₀ (mapSinks f : Roam ρ Unit) := by
  refine brings_mapSinks fun hC w hbase hsound => ?_
  have hgrows : Grows w (w.mapSinks f) := grows_of_extends (h hC w hbase) .refl
  refine ⟨hgrows, hsound.step (h hC w hbase) .refl ?_ fun _ _ => False.elim⟩
  rintro Y y (hbut | ⟨rfl, rfl⟩) _
  · exact .inl hbut
  · rcases hbase.known (hknown hC) with hmethod | henclosed | hstray
    · exact (hsound.methods Y y hmethod).imp_right (Or.imp hgrows.enclosed hgrows.stray)
    · exact .inr (.inl (hgrows.enclosed henclosed))
    · exact .inr (.inr (hgrows.stray hstray))

lemma brings_knownMethod (hknown : C → w₀.Known X x)
    (h : ∀ ss, Extends (Only X x) (fun _ _ => False) ss (f ss)) :
    Brings C but but w₀ (mapSinks f : Roam ρ Unit) :=
  brings_knownMethod_of hknown fun _ w _ => h w.sinks

lemma brings_newMethod (h : ∀ ss, Extends (Only X x) (fun _ _ => False) ss (f ss)) :
    Brings C (fun _ _ => False) (Only X x) w₀ (mapSinks f : Roam ρ Unit) := by
  refine brings_mapSinks fun _ w _ hsound => ?_
  refine ⟨grows_of_extends (h w.sinks) .refl, ?_⟩
  refine hsound.step (h w.sinks) .refl ?_ fun _ _ => False.elim
  rintro Y y (hbut | hnew) _
  · exact hbut.elim
  · exact .inl hnew

lemma brings_spreadOutward (hx : C → w₀.sinks.HasMethod X x) :
    Brings C (Only X x) (fun _ _ => False) w₀
      (mapSinks (spreadOutward X x x.length x) : Roam ρ Unit) := by
  refine brings_mapSinks fun hC w hbase hsound => ?_
  have hx' : w.sinks.HasMethod X x := hbase.sinks.methods _ _ (hx hC)
  have hextends := extends_spreadOutward x.length x .refl hx'
  refine ⟨grows_of_extends hextends .refl, hsound.step hextends .refl ?_ ?_⟩
  · intro Y y hy _
    -- from the method as from a block around it, only such blocks come next
    obtain ⟨rfl, hxy⟩ : Y = X ∧ Relation.ReflTransGen Around x y := by
      rcases hy with ⟨hY, rfl⟩ | ⟨hY, hxy⟩
      · exact ⟨hY, .refl⟩
      · exact ⟨hY, hxy.to_reflTransGen⟩
    refine .inr (.inl fun _ houter => ?_)
    exact hasMethod_spreadOutward le_rfl .refl (.tail' hxy houter) hx'
  · rintro k e (⟨rfl, hk⟩ | ⟨rfl, hdot, hns⟩)
    · exact .inl ⟨k, .inl rfl, hk⟩
    · exact .inr ⟨X, x, rfl, hdot, hns⟩

lemma brings_register {k : String} (hx : C → w₀.sinks.HasMethod X x) (hk : k = x ∨ k = x ++ "-l") :
    Brings C but but w₀ (mapSinks (·.addPotentMethod k [X]) : Roam ρ Unit) := by
  refine brings_mapSinks fun hC w hbase hsound => ?_
  have hextends := extends_addPotentMethod w.sinks k (List.cons_ne_nil X [])
  have hgrows : Grows w (w.mapSinks (·.addPotentMethod k [X])) :=
    grows_of_extends hextends .refl
  refine ⟨hgrows, hsound.step hextends .refl ?_ ?_⟩
  · rintro Y y (hbut | hnew) _
    · exact .inl hbut
    · exact hnew.elim
  · rintro k e ⟨rfl, he⟩
    obtain rfl := List.mem_singleton.mp he
    exact .inl ⟨x, hk, (hbase.trans hgrows).sinks.methods _ _ (hx hC)⟩

lemma brings_spreadModule {mod : String} : Brings C but but w₀ (mapWorld fun w =>
      { w with sinks := w.sinks.spreadModule (World.callersAt w.modules) mod } : Roam ρ Unit) := by
  refine brings_mapWorld (fun w => { Surveys.refl w with }) fun _ w _ hsound => ?_
  have hextends := extends_spreadModule w.sinks (World.callersAt w.modules) mod
  refine ⟨grows_of_extends hextends .refl, hsound.step hextends .refl ?_ ?_⟩
  · rintro X x (hbut | ⟨n, hn, rfl, method, hx⟩) _
    · exact .inl hbut
    · exact .inr (.inr (.caller (noted_of_plain (hsound.sources X n hn) hx)))
  · rintro k e ⟨rfl, hk⟩
    exact .inl ⟨k, .inl rfl, hk⟩

/-! ### Surveys that keep the world sound -/

/-- The action takes a survey and keeps the world sound. -/
def Keeping (a : Roam ρ α) : Prop := ∀ C w, Keeps C w a

lemma Keeping.surveying (h : Keeping a) : Surveying a := (h False {}).surveying id

lemma Noting.keeping (h : Noting a) : Keeping a := fun _ _ => h.brings

lemma keeping_of_reads (h : Reads a) : Keeping a := Noting.keeping h.leads

protected lemma Keeping.pure {v : α} : Keeping (pure v : Roam ρ α) := keeping_of_reads .pure

lemma Keeping.bind {f : α → Roam ρ β} (ha : Keeping a)
    (hf : ∀ v, Keeping (f v)) : Keeping (a >>= f) := fun C w => (ha C w).bind fun v => hf v C w

lemma keeping_read {f : α → Roam ρ β} (h : Reads a) (hf : ∀ v, Keeping (f v)) : Keeping (a >>= f) :=
  (keeping_of_reads h).bind hf

lemma Keeping.ite [Decidable c] (ha : Keeping a) (hb : Keeping b) : Keeping (if c then a else b) :=
  fun C w => .ite (ha C w) (hb C w)

lemma Keeping.when [Decidable c] {a : Roam ρ Unit} {f : Unit → Roam ρ α} (ha : Keeping a)
    (hf : Keeping (f ())) : Keeping (if c then a >>= f else f ()) := (ha.bind fun _ => hf).ite hf

lemma keeping_forM {f : α → Roam ρ Unit} (h : ∀ a ∈ as, Keeping (f a)) : Keeping (as.forM f) :=
  fun C w => brings_forM fun a ha => h a ha C w

end SinkTrace.Walk
