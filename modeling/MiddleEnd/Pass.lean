import MiddleEnd.Context
import MiddleEnd.Walk.Basic

/-!
# MiddleEnd.Pass

Passes that keep a `Context`. `Pass.runModules` walks modules one after another on one trail,
and tells the context where each of them begins and ends; a pass that leaves something open is
blamed at the module.
-/

namespace MiddleEnd

/-- A pass whose own state contains a context. -/
structure Pass (σ : Type) where
  hooks : Hooks σ
  context : σ → Context
  withContext : σ → Context → σ

namespace Pass

variable {σ : Type}

/-- Make a move of the context between two walks; a refused move is a defect of the module. -/
def move (p : Pass σ) (m : ModuleId) (move : ContextM Unit) : WalkM σ Unit := do
  let state ← get
  let (result, context) := move.run.run (p.context state.scene.own)
  set { state with scene.own := p.withContext state.scene.own context }
  match result with
  | .ok () => pure ()
  | .error cause => Walk.fail p.hooks (.module m) cause

/-- Walk one module. -/
def runModule (p : Pass σ) (m : ModuleId) : WalkM σ Unit := do
  p.move m (Context.beginModule m)
  Walk.run p.hooks (.module m)
  p.move m Context.endModule

/-- Walk modules in order on one trail. -/
def runModules (p : Pass σ) (modules : List ModuleId) : WalkM σ Unit := modules.forM p.runModule

/-- Walk modules in order on a new trail: how many nodes were entered, or why the walk halted, and
the scene it left. -/
def run (p : Pass σ) (modules : List ModuleId) (scene : Scene σ) : Except Halt Tally × Scene σ :=
  let (result, state) := (p.runModules modules).run.run ⟨.start, scene⟩
  (result.map fun () => state.trail.tally, state.scene)

end Pass

end MiddleEnd
