import Stacking.Style.Node

/-!
# Verdicts on declarations

Which declarations make their rule establish a stacking context, and which `z-index` declarations
have no effect. Both are judged from the source as written: from the declaration, the declarations
beside it and whether they stand in a rule or at-rule, without cascade, inheritance or computed
values.
-/

namespace Stacking

/-! ## Known properties and values -/

/-- The values that leave every property as if it had not been set here. -/
def neutralValues : List String := ["unset", "initial", "inherit", "revert"]

/-- The properties that can establish a stacking context. -/
def contextProperties : List String :=
  ["clip-path", "contain", "filter", "isolation", "mask", "mask-border", "mask-image",
   "mix-blend-mode", "opacity", "perspective", "position", "transform",
   "-webkit-overflow-scrolling", "webkit-overflow-scrolling", "will-change", "z-index"]

/-- The properties of flex and grid items. A rule that sets one of them is taken to style such an
item. -/
def itemProperties : List String :=
  ["flex", "flex-grow", "flex-shrink", "flex-basis", "grid-column-start", "grid-column-end",
   "grid-row-start", "grid-row-end", "grid-column", "grid-row", "align-self", "justify-self",
   "place-self", "order"]

/-- The properties that establish a context with every value but `none`. -/
def noneDisabledProperties : List String :=
  ["transform", "filter", "perspective", "clip-path", "mask", "mask-image", "mask-border"]

/-- The values with which `contain` establishes a context. -/
def containValues : List String := ["layout", "paint", "strict", "content"]

/-! ## A declaration in itself -/

namespace Declaration

/-- Whether the declaration positions its element without leaving the flow of `z-index`. -/
def isPositioned (d : Declaration) : Bool :=
  d.property == "position" && ["absolute", "relative"].contains d.value

/-- Whether the declaration makes `z-index` apply to its rule. -/
def enablesZIndex (d : Declaration) : Bool :=
  d.isPositioned || itemProperties.contains d.property

/-- Whether a `will-change` value names a property that can establish a context. -/
def namesContextProperty (value : String) : Bool :=
  (Text.splitOn ',' value.toList).any fun name =>
    contextProperties.contains (String.ofList (Text.trim name))

/-- Whether the declaration establishes a stacking context, given whether `z-index` applies where
it stands. -/
def establishes (zIndexApplies : Bool) (d : Declaration) : Bool :=
  if !contextProperties.contains d.property || neutralValues.contains d.value then false
  else if d.property == "z-index" then d.value != "auto" && zIndexApplies
  else if d.property == "position" then ["fixed", "sticky"].contains d.value
  else if d.property == "opacity" then d.value != "1"
  else if d.property == "mix-blend-mode" then d.value != "normal"
  else if noneDisabledProperties.contains d.property then d.value != "none"
  else if d.property == "isolation" then d.value == "isolate"
  else if ["-webkit-overflow-scrolling", "webkit-overflow-scrolling"].contains d.property then
    d.value == "touch"
  else if d.property == "contain" then containValues.contains d.value
  else if d.property == "will-change" then namesContextProperty d.value
  else false

/-- Whether the declaration asks for a place in the stacking order. -/
def setsZIndex (d : Declaration) : Bool :=
  d.property == "z-index" && d.value != "auto" && !neutralValues.contains d.value

end Declaration

/-! ## A declaration where it stands -/

namespace Occurrence

/-- Whether `z-index` applies where the declaration stands: in a rule or at-rule that positions its
element or styles a flex or grid item. -/
def zIndexApplies (o : Occurrence) : Bool :=
  o.owner.isRuleLike && o.siblings.any (·.enablesZIndex)

/-- Whether the declaration makes its rule establish a stacking context. -/
def establishesContext (o : Occurrence) : Bool := o.declaration.establishes o.zIndexApplies

/-- Whether the declaration is a `z-index` without effect: none of the declarations of its owner
establishes a stacking context. -/
def isIneffective (o : Occurrence) : Bool :=
  o.declaration.setsZIndex && !o.siblings.any (·.establishes o.zIndexApplies)

end Occurrence
end Stacking
