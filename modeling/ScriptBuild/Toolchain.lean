import ScriptBuild.Expansion
import ScriptBuild.Output.Basic
import ScriptBuild.Source

/-!
# Building

A toolchain compiles a source, expands it by all that it needs, and writes the
result.
-/

namespace ScriptBuild

variable [WorkingDirectory]

structure Toolchain where
  library : RuntimeLibrary
  compiler : Compiler
  optimizer : Option Optimizer := none

namespace Toolchain

def optimizerFor (toolchain : Toolchain) (o : Options) : Except BuildError (Option Optimizer) :=
  if o.level.isEnabled then
    match toolchain.optimizer with
    | some optimizer => .ok (some optimizer)
    | none => .error (.noOptimizer o.level.name)
  else .ok none

/-- Does all of a build but to emit the text of the result, which it gives. Options
that are not valid, and a level that asks for an optimizer where there is none,
are refused before anything is done. -/
def result (toolchain : Toolchain) (o : Options) (source : Source) : Build String := do
  Build.ofExcept o.validate
  let optimizer ← Build.ofExcept (toolchain.optimizerFor o)
  let inputs ← source.compile toolchain.compiler o
  let artifacts ← Expansion.expand toolchain.library toolchain.compiler o inputs
  match optimizer with
  | some optimizer => Output.bundle optimizer o artifacts
  | none => Output.placeFiles toolchain.library o artifacts

def build (toolchain : Toolchain) (o : Options) (source : Source) : Build String := do
  let text ← toolchain.result o source
  Output.emit text o.outputTo

end Toolchain

end ScriptBuild
