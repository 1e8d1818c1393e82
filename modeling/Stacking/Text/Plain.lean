import Stacking.Text.Basic

/-!
# Plain text

A terminal takes some sequences of characters for orders, to change a colour say. Such a control
sequence is an escape character, an opening bracket, parameters, intermediate characters and a final
character; plain text is what is left when they are taken out.
-/

namespace Stacking
namespace Text

/-- A parameter of a control sequence: a digit or one of `:;<=>?`. -/
def isControlParameter (c : Char) : Bool := 0x30 ≤ c.toNat && c.toNat ≤ 0x3F

/-- A character that may stand after the parameters: the space or one of the signs up to `/`. -/
def isControlIntermediate (c : Char) : Bool := 0x20 ≤ c.toNat && c.toNat ≤ 0x2F

/-- A character that ends a control sequence: an ASCII letter or one of the signs among them. -/
def isControlFinal (c : Char) : Bool := 0x40 ≤ c.toNat && c.toNat ≤ 0x7E

/-- The length of the control sequence at the start of a text, zero if there is none. -/
def controlLength : Text → Nat
  | '\x1b' :: '[' :: body =>
    let rest := (body.dropWhile isControlParameter).dropWhile isControlIntermediate
    match rest with
    | [] => 0
    | c :: _ => if isControlFinal c then 2 + (body.length - rest.length) + 1 else 0
  | _ => 0

/-- The text without control sequences, from where `skip` characters of one are still to pass. -/
def plainFrom : Nat → Text → Text
  | _, [] => []
  | skip + 1, _ :: rest => plainFrom skip rest
  | 0, c :: rest =>
    match controlLength (c :: rest) with
    | 0 => c :: plainFrom 0 rest
    | skip + 1 => plainFrom skip rest

/-- The text without control sequences. -/
def plain (t : Text) : Text := plainFrom 0 t

end Text
end Stacking
