import Stacking.Command.Outcome
import Stacking.Repair

/-!
# Fixing files

`fix` corrects every `z-index` without effect in a file and prints the corrected text, or writes it
back if there is anything to correct.
-/

namespace Stacking
namespace Command

/-- The file tree with a repaired text written back, unless there was nothing to repair. -/
def writeBack (tree : FileTree) (path : Path) (r : Repair) : FileTree :=
  if r.edits.isEmpty then tree
  else
    let changedAt := ((tree.files.get? path).map (·.changedAt)).getD 0
    tree.write path ⟨.text r.text, changedAt⟩

/-- Corrects a file. -/
def fix (tree : FileTree) (file : FileOperand) (strategy : Strategy) (write : Bool) : Outcome :=
  match file.text? tree with
  | none => ⟨[], .aborted .undecodable, tree⟩
  | some text =>
    match Repair.ofText strategy text with
    | .error e => ⟨.err ("Parse error: " ++ e.message), .exit 1, tree⟩
    | .ok r =>
      if write then
        ⟨.err ("Fixed " ++ toString r.diagnostics.length ++ " declaration(s) in " ++ file.written),
          .exit 0, writeBack tree file.path r⟩
      else ⟨.print .out (String.ofList r.text), .exit 0, tree⟩

end Command
end Stacking
