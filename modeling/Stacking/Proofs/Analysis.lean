import Stacking.Analysis
import Stacking.Proofs.Style.Walk

/-!
# What an analysis lists

The analysis is one pass over the declarations of a text. Its findings are, in order, those of the
declarations taken one by one.
-/

namespace Stacking

/-- The finding about a declaration, if it is a `z-index` without effect and has a place. -/
def Occurrence.finding? (p : Publication) (o : Occurrence) : Option Diagnostic :=
  if o.isIneffective then o.declaration.span.map fun span => p.finding (.ofSpan span) else none

namespace Analysis

/-- One declaration adds its own finding and nothing else to the findings, and leaves the name and
version of the document alone. -/
theorem add_eq (p : Publication) (a : Analysis) (o : Occurrence) :
    (add p a o).uri = a.uri ∧ (add p a o).version = a.version ∧
      (add p a o).diagnostics = a.diagnostics ++ (o.finding? p).toList := by
  unfold add Occurrence.finding?
  cases o.declaration.span with
  | none => simp
  | some span =>
    cases o.establishesContext <;> cases o.isIneffective <;> simp [addContext, addDiagnostic]

theorem foldl_add_eq (p : Publication) (os : List Occurrence) (a : Analysis) :
    (os.foldl (add p) a).uri = a.uri ∧ (os.foldl (add p) a).version = a.version ∧
      (os.foldl (add p) a).diagnostics = a.diagnostics ++ os.filterMap (·.finding? p) := by
  induction os generalizing a with
  | nil => simp
  | cons o rest ih =>
    obtain ⟨huri, hversion, hdiag⟩ := add_eq p a o
    obtain ⟨ihuri, ihversion, ihdiag⟩ := ih (add p a o)
    refine ⟨ihuri.trans huri, ihversion.trans hversion, ?_⟩
    rw [List.foldl_cons, ihdiag, hdiag, List.append_assoc]
    cases ho : o.finding? p <;> simp [ho]

/-- Only a text that parses has an analysis, that of its tree. -/
theorem exists_parse_of_ofText {uri : String} {version : Int} {p : Publication} {t : Text}
    {a : Analysis} (h : ofText uri version p t = .ok a) :
    ∃ s, Stylesheet.parse t = .ok s ∧ ofStylesheet uri version p s = a := by
  cases hs : Stylesheet.parse t with
  | error e =>
    rw [ofText, hs] at h
    cases h
  | ok s =>
    rw [ofText, hs] at h
    exact ⟨s, rfl, Except.ok.inj h⟩

/-- The analysis of a text is named after the document, and its findings are those of the
declarations of the text. -/
theorem ofText_eq_ok {uri : String} {version : Int} {p : Publication} {t : Text} {a : Analysis}
    (h : ofText uri version p t = .ok a) :
    ∃ s, Stylesheet.parse t = .ok s ∧ a.uri = uri ∧ a.version = version ∧
      a.diagnostics = s.occurrences.filterMap (·.finding? p) := by
  obtain ⟨s, hs, rfl⟩ := exists_parse_of_ofText h
  obtain ⟨huri, hversion, hdiag⟩ := foldl_add_eq p s.declarations { uri, version }
  refine ⟨s, hs, huri, hversion, ?_⟩
  rw [← s.declarations_eq_occurrences]
  exact hdiag

/-- A text that parses has an analysis, with the findings of its declarations. -/
theorem exists_ofText_eq_ok (uri : String) (version : Int) (p : Publication) {t : Text}
    {s : Stylesheet} (h : Stylesheet.parse t = .ok s) :
    ∃ a, ofText uri version p t = .ok a ∧
      a.diagnostics = s.occurrences.filterMap (·.finding? p) := by
  refine ⟨ofStylesheet uri version p s, by rw [ofText, h], ?_⟩
  rw [← s.declarations_eq_occurrences]
  exact (foldl_add_eq p s.declarations { uri, version }).2.2

/-- Analyses can be compared where their errors cannot. -/
theorem ofText_eq_ok_of_toOption {uri : String} {version : Int} {p : Publication} {t : Text}
    {a : Analysis} (h : (ofText uri version p t).toOption = some a) :
    ofText uri version p t = .ok a :=
  ParseError.eq_ok_of_toOption h

end Analysis
end Stacking
