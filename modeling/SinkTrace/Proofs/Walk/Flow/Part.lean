import SinkTrace.Proofs.Analysis.Steps
import SinkTrace.Proofs.Data.Table
import SinkTrace.Proofs.Text.Split

/-!
# The part of a name in its module

The passes look up what leads to a sink by the module of a definition and by the part of its name
after the module. The part is what is left without every place of the module's name and a dot, so it
is the right one only where the module's name with the dot does not come again. Then the lookups are
made at the part.
-/

namespace SinkTrace.Flow

open Act Walk

variable {s : Walk Flow} {d : Definition} {n : SinkNode} {module part ns : String}

lemma run_moduleAndPart (hd : s.world.defs.get? ns = some d) (hmodule : d.module = some module) :
    moduleAndPart ns s = (.ok (module, Text.replace ns (module ++ ".") ""), s) := by
  unfold moduleAndPart
  rw [run_bind, show getWorld s = (.ok s.world, s) from rfl]
  dsimp only
  rw [hd, run_bind, run_need_some]
  dsimp only
  rw [hmodule, run_bind, run_need_some]
  rfl

lemma run_leadsToSink (hn : s.world.sinks.node? module = some n) : leadsToSink module part s =
      (.ok (s.world.sinks.potentMethods.contains part || n.methodUsers.contains part), s) := by
  unfold leadsToSink
  rw [run_bind, show getWorld s = (.ok s.world, s) from rfl]
  simp only [hn]
  rfl

section Lookups

variable (h : moduleAndPart ns s = (.ok (module, part), s))
  (hn : s.world.sinks.node? module = some n)
include h hn

lemma run_search (names : Names) : sinkIn?.search (ns :: names) s =
      if s.world.sinks.potentMethods.contains part || n.methodUsers.contains part then
        (.ok (some ns), s)
      else sinkIn?.search names s := by
  rw [sinkIn?.search, run_bind, h]
  dsimp only
  rw [run_bind, run_leadsToSink hn]
  dsimp only
  split_ifs <;> rfl

lemma run_settle (hd : s.world.defs.get? ns = some d)
    (hresource : s.world.sinks.resources.methodsOf.contains ns = false) (onCaller : Bool)
    (names : Names) (q : Sought) :
    let method := if d.kind == .cls && Text.endsWith ns q.method then initMethod else q.method
    settle onCaller (ns :: names) q s =
      if (!onCaller && n.methodUsers.contains part) || n.methodUsers.contains
        (part ++ "." ++ method) then
        (.ok (.inl (.method method)), s)
      else settle onCaller names { method, owner := some (module, part) } s := by
  intro method
  rw [settle, run_bind, show getWorld s = (.ok s.world, s) from rfl]
  dsimp only
  rw [hresource, if_neg Bool.false_ne_true, run_bind, h]
  dsimp only
  rw [hd, hn]
  change (ite _ _ _ : Follow (Called ⊕ Sought)) s = _
  rw [run_ite]
  rfl

lemma run_promoteEnds (method : String) :
    promoteEnds method [ns] s = (do promote promoteDepth module part method; return true) s := by
  have hnode : s.world.sinks.nodes.contains module := Table.contains_of_get? hn
  rw [promoteEnds, run_bind, show currentClassNs s = (.ok _, s) from rfl]
  dsimp only
  rw [foldlM_singleton, run_bind, h]
  dsimp only
  rw [run_bind, show inheritance s = (.ok _, s) from rfl]
  dsimp only
  rw [run_bind, show getWorld s = (.ok s.world, s) from rfl]
  simp [hnode]

lemma run_promoteByValues (hdict : isDictNs ns = false) (users : Names) (fuel : Nat) :
    promoteByValues users (fuel + 1) [ns] [] s =
      if s.world.sinks.potentMethods.contains part || n.methodUsers.contains part
          || s.world.sinks.resources.methodsOf.contains module then
        (do users.forM fun m => promote promoteDepth s.frame.module m m; return [ns]) s
      else (.ok [ns], s) := by
  have hnode : s.world.sinks.nodes.contains module := Table.contains_of_get? hn
  rw [promoteByValues, foldlM_singleton, List.contains_nil,
    if_neg Bool.false_ne_true, hdict, if_neg Bool.false_ne_true, run_bind, h]
  dsimp only
  rw [run_bind, show getWorld s = (.ok s.world, s) from rfl]
  dsimp only
  rw [run_bind, run_leadsToSink hn]
  dsimp only
  rw [hnode, Bool.true_and]
  split_ifs
  · rw [run_bind, show moduleName s = (.ok s.frame.module, s) from rfl]
    rfl
  · rfl

end Lookups

/-- The part of a name is found again exactly if the name of its module does not come again in
it. -/
theorem part_found_iff (hd : s.world.defs.get? (module ++ "." ++ part) = some d)
    (hmodule : d.module = some module) :
    (moduleAndPart (module ++ "." ++ part) s = (.ok (module, part), s) ↔
      Text.contains part (module ++ ".") = false) ∧
    (Text.contains part (module ++ ".") = false → ∀ n, s.world.sinks.node? module = some n →
      let known := s.world.sinks.potentMethods.contains part || n.methodUsers.contains part
      (∀ names, sinkIn?.search ((module ++ "." ++ part) :: names) s =
        if known then (.ok (some (module ++ "." ++ part)), s) else sinkIn?.search names s) ∧
      (s.world.sinks.resources.methodsOf.contains (module ++ "." ++ part) = false →
        ∀ onCaller names q,
          let method := if d.kind == .cls && Text.endsWith (module ++ "." ++ part) q.method then
            initMethod else q.method
          settle onCaller ((module ++ "." ++ part) :: names) q s =
            if (!onCaller && n.methodUsers.contains part)
                || n.methodUsers.contains (part ++ "." ++ method) then
              (.ok (.inl (.method method)), s)
            else settle onCaller names { method, owner := some (module, part) } s) ∧
      (∀ method, promoteEnds method [module ++ "." ++ part] s =
        (do promote promoteDepth module part method; return true) s) ∧
      (isDictNs (module ++ "." ++ part) = false →
        ∀ users fuel, promoteByValues users (fuel + 1) [module ++ "." ++ part] [] s =
          if known || s.world.sinks.resources.methodsOf.contains module then
            (do
              users.forM fun m => promote promoteDepth s.frame.module m m
              return [module ++ "." ++ part]) s
          else (.ok [module ++ "." ++ part], s))) := by
  have hrun := run_moduleAndPart hd hmodule
  have hiff := Text.replace_append_iff (p := module ++ ".")
    (by simp [String.append_eq_empty_iff]) part
  refine ⟨?_, fun hclean n hn => ?_⟩
  · rw [hrun, ← hiff]
    exact ⟨fun h => (Prod.mk.inj (Except.ok.inj (Prod.mk.inj h).1)).2, fun h => by rw [h]⟩
  · rw [hiff.mpr hclean] at hrun
    exact ⟨run_search hrun hn, run_settle hrun hn hd, run_promoteEnds hrun hn,
      run_promoteByValues hrun hn⟩

def storedMethod : Definition := { ns := "m.Data.f", kind := .function, module := some "m" }

def stored : Walk Flow where
  world := {
    defs := { current := Table.ofList [("m.Data.f", storedMethod)] }
    sinks.nodes := Table.ofList [("m", { methodUsers := Table.ofList [("Data.f", ⟨0, 1⟩)] })] }
  frame := { file := "m.py", module := "m" }
  own := {}

theorem stored_part_found : moduleAndPart "m.Data.f" stored = (.ok ("m", "Data.f"), stored) ∧
      sinkIn?.search ["m.Data.f"] stored = (.ok (some "m.Data.f"), stored) := by
  obtain ⟨hiff, hlookups⟩ := @part_found_iff stored storedMethod "m" "Data.f" rfl rfl
  exact ⟨hiff.mpr (by decide), (hlookups (by decide) _ rfl).1 []⟩

/-- A method of a class is handed on to a function. -/
def handedOn (file : String) : FileTree := FileTree.ofTexts [(file, "class Data:\n" ++
  " def f(self, c):\n  exec(c)\ndef h(x):\n x(1)\ndef g():\n d = Data()\n h(d.f)\n")]

/-- The function leads to a sink, but not if the name of the module is the end of the name of the
class. -/
theorem handed_on_by_module_name :
    let sinksOf (file : String) :=
      (Analysis.run { sinkLines := some ["<builtin>:exec:0"], maxRounds := 1 }
      (handedOn file)).1.world.sinks
    ((sinksOf "m.py").links? "m" "h").isSome = true ∧
      ((sinksOf "a.py").links? "a" "h").isSome = false ∧
      Text.replace ("a" ++ "." ++ "Data.f") ("a" ++ ".") "" = "Datf" := by
  refine ⟨?_, ?_, ?_⟩ <;> decide +kernel

end SinkTrace.Flow
