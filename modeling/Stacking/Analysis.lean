import Stacking.Diagnostic
import Stacking.Verdict
import Stacking.Style.Parse

/-!
# Analysis

What one pass over a document finds: the declarations that establish a stacking context, the rules
they stand in, and the `z-index` declarations without effect. A declaration without a span counts
for the verdicts of its siblings but is not listed itself.
-/

namespace Stacking

/-- A declaration that makes its rule establish a stacking context. -/
structure StackingContext where
  property : String
  value : String
  range : Range
  /-- The range of the rule or at-rule; there is none at the root of a stylesheet. -/
  ruleRange : Option Range := none
deriving DecidableEq

/-- Everything one pass finds in one version of a document. -/
structure Analysis where
  uri : String
  version : Int := 0
  /-- The ranges of the declarations in `contexts`, in the same order. -/
  propertyRanges : List Range := []
  /-- The range of each rule that establishes a context, once, in the order first met. -/
  ruleRanges : List Range := []
  diagnostics : List Diagnostic := []
  contexts : List StackingContext := []
deriving DecidableEq

/-- What the findings of a pass are published with. -/
structure Publication where
  helpUri : String := defaultHelpUri
  source : String := defaultSource
deriving DecidableEq

/-- The finding that the `z-index` at a range has no effect. -/
def Publication.finding (p : Publication) (range : Range) : Diagnostic where
  range := range
  message := ineffectiveMessage
  helpUri := p.helpUri
  source := p.source

/-- The range of the owner, where it is a rule or at-rule with a span. -/
def Owner.range? : Owner → Option Range
  | .block _ (some span) => some (.ofSpan span)
  | _ => none

namespace Analysis

/-- Lists a declaration that establishes a context, and its rule if that is new. -/
def addContext (a : Analysis) (o : Occurrence) (range : Range) : Analysis :=
  let ruleRanges :=
    match o.owner.range? with
    | none => a.ruleRanges
    | some r => if a.ruleRanges.contains r then a.ruleRanges else a.ruleRanges ++ [r]
  { a with
    propertyRanges := a.propertyRanges ++ [range]
    ruleRanges := ruleRanges
    contexts := a.contexts ++ [⟨o.declaration.property, o.declaration.value, range, o.owner.range?⟩] }

/-- Lists a `z-index` without effect. -/
def addDiagnostic (p : Publication) (a : Analysis) (range : Range) : Analysis :=
  { a with diagnostics := a.diagnostics ++ [p.finding range] }

/-- Takes one declaration into account. -/
def add (p : Publication) (a : Analysis) (o : Occurrence) : Analysis :=
  match o.declaration.span with
  | none => a
  | some span =>
    let range := Range.ofSpan span
    let a := if o.establishesContext then a.addContext o range else a
    if o.isIneffective then a.addDiagnostic p range else a

/-- The findings among the given declarations. -/
def ofOccurrences (uri : String) (version : Int) (p : Publication) (os : List Occurrence) :
    Analysis :=
  os.foldl (add p) { uri, version }

/-- The findings in a tree, the nodes of which are `linked` to their owners or not. -/
def ofTree (linked : Bool) (uri : String) (version : Int) (p : Publication) (s : Stylesheet) :
    Analysis :=
  ofOccurrences uri version p (s.seen linked)

/-- The findings in a stylesheet. -/
def ofStylesheet (uri : String) (version : Int) (p : Publication) (s : Stylesheet) : Analysis :=
  ofTree true uri version p s

/-- The findings in a text. -/
def ofText (uri : String) (version : Int) (p : Publication) (t : Text) :
    Except ParseError Analysis :=
  match Stylesheet.parse t with
  | .error e => .error e
  | .ok s => .ok (ofStylesheet uri version p s)

end Analysis
end Stacking
