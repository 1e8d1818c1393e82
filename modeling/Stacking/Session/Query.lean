import Stacking.Fix
import Stacking.Hover
import Stacking.Session.State

/-!
# Queries

What an editor asks a session about a document.
-/

namespace Stacking

/-- Why a session cannot answer. -/
inductive QueryFault where
  /-- The document has not been analysed. -/
  | notAnalysed
  /-- There is no finding with that number. -/
  | noSuchDiagnostic
  | notOpen (uri : String)
  | noFix (fault : FixFault)

/-- The wording of a fault, where it has one. -/
def QueryFault.message? : QueryFault → Option String
  | .notAnalysed => none
  | .noSuchDiagnostic => none
  | .notOpen uri => some ("Document is not open: " ++ uri)
  | .noFix fault => fault.message?

namespace Session

variable {τ : Type}

/-- The findings of a document, none if it has not been analysed. -/
def diagnostics (s : Session τ) (uri : String) : List Diagnostic :=
  ((s.result? uri).map (·.diagnostics)).getD []

/-- The finding of a document with a given number; a negative number counts from the end. -/
def diagnosticAt (s : Session τ) (uri : String) (index : Int) : Except QueryFault Diagnostic :=
  match s.result? uri with
  | none => .error .notAnalysed
  | some result =>
    let found :=
      if 0 ≤ index then result.diagnostics[index.toNat]?
      else result.diagnostics.reverse[(-index - 1).toNat]?
    match found with
    | none => .error .noSuchDiagnostic
    | some d => .ok d

/-- The hover at a position of an open and analysed document. -/
def hover? (s : Session τ) (uri : String) (p : Position) : Option Hover :=
  match s.result? uri, s.documents.get? uri with
  | some result, some d => Hover.at? result.contexts d.text p
  | _, _ => none

/-- The fixes for a finding, computed against the text of an open document, with that text. -/
def quickFixes (s : Session τ) (uri : String) (d : Diagnostic) :
    Except QueryFault (Text × List QuickFix) :=
  match s.documents.get? uri with
  | none => .error (.notOpen uri)
  | some document =>
    match QuickFix.forDiagnostic d document.text with
    | .error e => .error (.noFix e)
    | .ok fixes => .ok (document.text, fixes)

end Session
end Stacking
