import CssVendor.Compiler
import CssVendor.Proofs.Lifetime

/-!
# Nothing is carried from sheet to sheet

Plugins outlive the sheets they run over, and what they have done changes
them. None of it shows in what they do next. The filler carries its options,
which no run reads, and its count, which a run moves and does not look at; so
two passes over the same blocks that start from different counts change the
blocks alike and stop at the same place (`Pass.agrees`). A chain of plugins, a
compiler and a history of steps inherit this layer by layer: taking each filler
back to the state in which a default one is registered commutes with every
step (`Compiler.fresh_step`), and a compilation is a step that leaves no trace
at all.
-/

namespace CssVendor

/-! ## Plugins -/

namespace Plugin

/-- The plugin as if it had just been added, with no options set. -/
def fresh : Plugin → Plugin
  | .filler _ => .register .default
  | .append d => .append d

theorem run_fresh (p : Plugin) (t : Block) :
    (p.run t).result = (p.fresh.run t).result ∧
      (p.run t).tree = (p.fresh.run t).tree ∧
      (p.run t).plugin.fresh = p.fresh := by
  cases p with
  | filler f =>
      obtain ⟨hresult, htree⟩ := f.run_eq (Filler.new .default) t
      exact ⟨hresult, htree, rfl⟩
  | append d => exact ⟨rfl, rfl, rfl⟩

/-- A chain of plugins runs as a chain of fresh ones does, and is as good as
fresh afterwards. -/
theorem runAll_fresh (ps : List Plugin) (t : Block) :
    (runAll ps t).result = (runAll (ps.map fresh) t).result ∧
      (runAll ps t).tree = (runAll (ps.map fresh) t).tree ∧
      (runAll ps t).plugin.map fresh = ps.map fresh := by
  induction ps generalizing t with
  | nil => exact ⟨rfl, rfl, rfl⟩
  | cons p ps ih =>
      obtain ⟨hresult, htree, hplugin⟩ := p.run_fresh t
      simp only [List.map_cons, runAll, ← hresult, ← htree]
      cases (p.run t).result with
      | error fault =>
          refine ⟨rfl, rfl, ?_⟩
          rw [List.map_cons, hplugin]
      | ok u =>
          obtain ⟨hresults, htrees, hplugins⟩ := ih (p.run t).tree
          refine ⟨hresults, htrees, ?_⟩
          rw [List.map_cons, hplugin, hplugins]

end Plugin

/-! ## Compilers -/

namespace Compiler

/-- Something that is done with a compiler. -/
inductive Step
  | setLayout (layout : Layout)
  | register (options : Options)
  | append (d : Declaration)
  | compile (css : String)

/-- What is left of a step if one looks for settings only: nothing of a
compilation, and of a registration not the options. -/
def Step.setting? : Step → Option Step
  | .compile _ => none
  | .register _ => some (.register .default)
  | step => some step

variable [Sheet.Validator]

/-- The compiler after a step. -/
def step (c : Compiler) : Step → Compiler
  | .setLayout layout => c.setLayout layout
  | .register options => c.add (.register options)
  | .append d => c.add (.append d)
  | .compile css => (c.compile css).compiler

/-- The compiler after some steps. -/
def afterSteps (c : Compiler) (steps : List Step) : Compiler :=
  steps.foldl step c

/-- What the compilations among some steps result in, in order. -/
def results (c : Compiler) : List Step → List (Except Fault String)
  | [] => []
  | .compile css :: steps =>
      let compilation := c.compile css
      compilation.result :: compilation.compiler.results steps
  | s :: steps => (c.step s).results steps

/-- The compiler with fresh plugins. -/
def fresh (c : Compiler) : Compiler :=
  { c with plugins := c.plugins.map Plugin.fresh }

theorem compile_fresh (c : Compiler) (css : String) :
    (c.compile css).result = (c.fresh.compile css).result ∧
      (c.compile css).compiler.fresh = c.fresh := by
  rw [compile, compile]
  cases Sheet.parse css with
  | error fault => exact ⟨rfl, rfl⟩
  | ok r =>
      obtain ⟨hresult, htree, hplugin⟩ := Plugin.runAll_fresh c.plugins r.1
      simp only [fresh, hresult, htree, hplugin, and_self]

/-- Of a step, only its setting changes a compiler up to freshness. -/
theorem fresh_step (c : Compiler) (s : Step) :
    (c.step s).fresh = s.setting?.elim c.fresh c.fresh.step := by
  cases s with
  | setLayout layout => rfl
  | register options | append d =>
      simp [step, fresh, add, Step.setting?, Plugin.fresh, Plugin.register]
  | compile css => exact (c.compile_fresh css).2

theorem fresh_afterSteps (c : Compiler) (steps : List Step) :
    (c.afterSteps steps).fresh =
      c.fresh.afterSteps (steps.filterMap Step.setting?) := by
  induction steps generalizing c with
  | nil => rfl
  | cons s steps ih =>
      have hs := c.fresh_step s
      rw [afterSteps, List.foldl_cons, ← afterSteps, ih, hs, List.filterMap_cons]
      cases s.setting? with
      | none => rfl
      | some setting => rfl

theorem results_append (c : Compiler) (steps more : List Step) :
    c.results (steps ++ more) =
      c.results steps ++ (c.afterSteps steps).results more := by
  induction steps generalizing c with
  | nil => rfl
  | cons s steps ih =>
      cases s with
      | compile css => exact congrArg _ (ih _)
      | setLayout layout | register options | append d => exact ih _

/-- In every sequence of steps on a new compiler, each compilation, behind
whatever others, failed ones included, results in what it would result in on a
new compiler of which only the settings before it had been made, all options
left open. A filler of any options and with any calls behind it makes of a tree
what a new one without options makes of it, and ends as that one ends. -/
theorem results_forget :
    (∀ (before after : List Step) (css : String),
      (new.results (before ++ .compile css :: after))[
          (new.results before).length]? =
        some ((new.afterSteps (before.filterMap Step.setting?)).compile
          css).result) ∧
    ∀ (options : Options) (calls : List Filler.Call) (root : Block),
      let r := ((Filler.new options).afterCalls calls).run root
      let r' := (Filler.new .default).run root
      r.result = r'.result ∧ r.tree = r'.tree := by
  refine ⟨fun before after css => ?_, fun options calls root => ?_⟩
  · have hsteps := new.fresh_afterSteps before
    have hnew : new.fresh = new := rfl
    rw [hnew] at hsteps
    rw [results_append, List.getElem?_append_right (Nat.le_refl _),
      Nat.sub_self, ← hsteps, ← ((new.afterSteps before).compile_fresh css).1]
    rfl
  · exact Filler.run_eq _ _ root

end Compiler

end CssVendor
