import ProjectAnalysis.XmlFault
import ProjectAnalysis.TextReader

/-! The pieces of a document in a row: character data up to the next `<`, and markup from `<` to
its end. Pieces lie side by side and none is empty. -/
namespace ProjectAnalysis.Xml

inductive Piece
  | text
  /-- `<![CDATA[…]]>` -/
  | characterData
  /-- An opening tag, with the name that its closing tag has to repeat. -/
  | opening (name : List Char)
  /-- A tag that opens and closes an element. -/
  | empty
  | closing (name : List Char)
  /-- A comment, a declaration, an instruction or a document type. -/
  | aside
deriving DecidableEq, Repr

/-- The number of characters before the next occurrence of `mark`. -/
def indexOf? (mark : List Char) : List Char → Option Nat
  | [] => none
  | c :: cs => if mark.isPrefixOf (c :: cs) then some 0 else (indexOf? mark cs).map (· + 1)

/-- The number of characters before the `>` that ends a tag: the first outside quotes. -/
def tagEnd? (quote : Option Char) : List Char → Option Nat
  | [] => none
  | c :: cs =>
    match quote with
    | some q => (tagEnd? (if c = q then none else some q) cs).map (· + 1)
    | none =>
      if c = '>' then some 0
      else (tagEnd? (if c = '\'' || c = '"' then some c else none) cs).map (· + 1)

/-- The number of characters before the `>` that ends a document type, in which `<` and `>` pair
up. -/
def doctypeEnd? (depth : Nat) : List Char → Option Nat
  | [] => none
  | c :: cs =>
    if c = '<' then (doctypeEnd? (depth + 1) cs).map (· + 1)
    else if c = '>' then
      match depth with
      | 0 => some 0
      | depth + 1 => (doctypeEnd? depth cs).map (· + 1)
    else (doctypeEnd? depth cs).map (· + 1)

/-- A piece of markup and the number of characters between its `<` and its `>`. -/
structure Markup where
  piece : Piece
  length : Nat

/-- Why there is no markup at a `<`: a cause, and the number of characters from the `<` to the
place it concerns. -/
structure MarkupFault where
  cause : Cause
  distance : Nat

/-- Markup that begins with `!`; `body` is everything from there on. -/
def declaration (body : List Char) : Except MarkupFault Markup :=
  match body with
  | _ :: '[' :: _ =>
    match indexOf? [']', ']', '>'] body with
    | none => .error ⟨.openCharacterData, 0⟩
    | some k =>
      if "![CDATA[".toList.isPrefixOf (body.take (k + 2)) then .ok ⟨.characterData, k + 2⟩
      else .error ⟨.openCharacterData, 0⟩
  | _ :: '-' :: _ =>
    match indexOf? ['-', '-', '>'] (body.drop 3) with
    | none => .error ⟨.openComment, 0⟩
    | some k =>
      if "!--".toList.isPrefixOf body then .ok ⟨.aside, k + 5⟩ else .error ⟨.openComment, 0⟩
  | _ :: d :: _ =>
    if d = 'D' || d = 'd' then
      match doctypeEnd? 0 body with
      | none => .error ⟨.openDoctype, 0⟩
      | some k =>
        let inside := body.take k
        if !startsIgnoringCase "!doctype".toList inside then .error ⟨.openDoctype, 0⟩
        else if (inside.drop 8).all isTagBlank then .error ⟨.missingDoctypeName, k + 1⟩
        else .ok ⟨.aside, k⟩
    else .error ⟨.unknownMarkup, 0⟩
  | _ => .error ⟨.unknownMarkup, 0⟩

/-- Markup that begins with `?`. -/
def instruction (body : List Char) : Except MarkupFault Markup :=
  match indexOf? ['?', '>'] body with
  | some (k + 1) => .ok ⟨.aside, k + 2⟩
  | _ => .error ⟨.openInstruction, 0⟩

/-- The name in a closing tag; white space after it does not count. -/
def closingName (inside : List Char) : List Char :=
  let name := inside.drop 1
  let bare := (name.reverse.dropWhile isTagBlank).reverse
  if bare.isEmpty then name else bare

/-- A tag of any kind. -/
def tag (body : List Char) : Except MarkupFault Markup :=
  match tagEnd? none body with
  | none => .error ⟨.openTag, 0⟩
  | some k =>
    let inside := body.take k
    if inside.head? = some '/' then .ok ⟨.closing (closingName inside), k⟩
    else if inside.getLast? = some '/' then .ok ⟨.empty, k⟩
    else .ok ⟨.opening (inside.takeWhile (!isTagBlank ·)), k⟩

/-- The markup after a `<`. -/
def markup (body : List Char) : Except MarkupFault Markup :=
  match body with
  | [] => .error ⟨.openTag, 0⟩
  | '!' :: _ => declaration body
  | '?' :: _ => instruction body
  | _ => tag body

/-- The next piece, or nothing at the end. -/
def nextPiece : (c : Cursor) → Except Fault (Option (Parsed Piece c))
  | ⟨_, []⟩ => .ok none
  | ⟨offset, x :: body⟩ =>
    let found : Except Fault (Piece × Nat) :=
      if x = '<' then
        match markup body with
        | .error f => .error (.at f.cause (offset + byteLength ((x :: body).take f.distance)))
        | .ok m => .ok (m.piece, m.length + 1)
      else .ok (.text, (body.takeWhile (· != '<')).length)
    match found with
    | .error fault => .error fault
    | .ok (piece, more) =>
      .ok (some ⟨piece, Cursor.skip (more + 1) ⟨offset, x :: body⟩, Cursor.reaches_skip _ _, by
        show (Cursor.skip _ _).size < Cursor.size _
        rw [Cursor.skip_size]
        simp only [Cursor.size, List.length_cons]
        omega⟩)

end ProjectAnalysis.Xml
