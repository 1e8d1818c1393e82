import Stacking.Fix
import Stacking.Table

/-!
# Repairs

A repair corrects every `z-index` without effect in a text at once, by one of two strategies. With
`isolate`, an owner gets one `isolation: isolate` however many such declarations it holds: the
corrections of the others would only repeat it. All edits are computed against the text as it is.
-/

namespace Stacking

/-- How a `z-index` without effect is corrected. -/
inductive Strategy where
  | isolate
  | remove
deriving DecidableEq

/-- Whether a quick fix is of the kind that a strategy applies. -/
def Strategy.applies : Strategy → QuickFix → Bool
  | .isolate, .insertIsolation .. => true
  | .remove, .removeDeclaration .. => true
  | _, _ => false

/-- A text with its corrections. -/
structure Repair where
  /-- The findings that were corrected. -/
  diagnostics : List Diagnostic
  edits : List Edit
  /-- The corrected text. -/
  text : Text

namespace Repair

/-- The owner of each declaration, by the range of the declaration. In a text, declarations have
different ranges. -/
def ownersByRange (s : Stylesheet) : Table Range Owner :=
  .ofList (s.declarations.filterMap fun o =>
    o.declaration.span.map fun span => (.ofSpan span, o.owner))

/-- The first finding of each owner that is not among `isolated`. In a text, owners have different
spans, so that equal ones are the same. -/
def firstOfEachOwner (owners : Table Range Owner) (isolated : List (Option Owner)) :
    List Diagnostic → List Diagnostic
  | [] => []
  | d :: rest =>
    let owner := owners.get? d.range
    if isolated.contains owner then firstOfEachOwner owners isolated rest
    else d :: firstOfEachOwner owners (owner :: isolated) rest

/-- The findings that a strategy corrects by an edit of their own. -/
def chosen (strategy : Strategy) (s : Stylesheet) (found : List Diagnostic) : List Diagnostic :=
  match strategy with
  | .isolate => firstOfEachOwner (ownersByRange s) [] found
  | .remove => found

/-- The edits with which a strategy corrects a finding. -/
def editsFor (strategy : Strategy) (t : Text) (d : Diagnostic) : List Edit :=
  match QuickFix.forDiagnostic d t with
  | .error _ => []
  | .ok fixes => (fixes.filter strategy.applies).map (·.edit)

/-- Corrects a text. -/
def ofText (strategy : Strategy) (t : Text) : Except ParseError Repair :=
  match Stylesheet.parse t with
  | .error e => .error e
  | .ok s =>
    let found := (Analysis.ofStylesheet "" 0 {} s).diagnostics
    let edits := (chosen strategy s found).flatMap (editsFor strategy t)
    .ok ⟨found, edits, Edit.applyAll t edits⟩

end Repair
end Stacking
