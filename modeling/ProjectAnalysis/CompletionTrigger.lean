import ProjectAnalysis.TextChar

/-! What is being typed: the reference that is open before the caret, with the part of its name
that stands there already. -/
namespace ProjectAnalysis

inductive Trigger
  | property (typed : String)
  | item (typed : String)
  | metadata (item : Option String) (typed : String)
deriving DecidableEq, Repr

namespace Trigger

def isNameChar (c : Char) : Bool :=
  isNamePart c || c == '-'

/-- The trigger of metadata, by what stands after the parenthesis. -/
def ofMetadata? (typed : List Char) : Option Trigger :=
  match splitOnce? '.' typed with
  | some (owner, name) =>
    if !owner.isEmpty && owner.all isNameChar && name.all isNameChar then
      some (.metadata (some (String.ofList owner)) (String.ofList name))
    else none
  | none => if typed.all isNameChar then some (.metadata none (String.ofList typed)) else none

/-- The open reference at the end of a text, if only a part of a name follows its parenthesis. -/
def ofText? (text : String) : Option Trigger :=
  let back := text.toList.reverse
  let typed := (back.takeWhile (· != '(')).reverse
  match back.dropWhile (· != '(') with
  | _ :: '$' :: _ => if typed.all isNameChar then some (.property (String.ofList typed)) else none
  | _ :: '@' :: _ => if typed.all isNameChar then some (.item (String.ofList typed)) else none
  | _ :: '%' :: _ => ofMetadata? typed
  | _ => none

end Trigger

end ProjectAnalysis
