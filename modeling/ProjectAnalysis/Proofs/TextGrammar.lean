import ProjectAnalysis.Proofs.CursorRun

/-! The grammar of text with references, as a relation between two places in a text and the nodes
that the characters between them are read as. White space may stand wherever the readers skip it.
The relation says what was read and not where reading had to stop, so it tells what the nodes of an
expression are like; what is read when is told by the readers alone. -/
namespace ProjectAnalysis.Expr

/-- A letter or `_`, and then letters, digits, `_` and `-`. -/
def IsName (cs : List Char) : Prop :=
  ∃ x xs, cs = x :: xs ∧ isNameStart x = true ∧ ∀ y ∈ xs, isNamePart y = true ∨ y = '-'

/-- A digit or `-`, and then digits and dots. -/
def IsNumber (cs : List Char) : Prop :=
  ∃ x xs, cs = x :: xs ∧ (x.isDigit = true ∨ x = '-') ∧ ∀ y ∈ xs, isNumberPart y = true

/-- Only white space stands between the two places. -/
def Blanks (c d : Cursor) : Prop :=
  ∃ cs, c.Reads cs d ∧ ∀ x ∈ cs, isBlank x = true

/-- A name stands between the two places. -/
def Named (c : Cursor) (cs : List Char) (d : Cursor) : Prop :=
  c.Reads cs d ∧ IsName cs

/-- Parts of a text as one node. -/
def joined (span : Span) (quoted : Bool) : List Node → Node
  | [] => .mk span (.text "" quoted)
  | [node] => node
  | nodes => .mk span (.concat nodes)

inductive TextRule
  /-- Literal text and references in turn, inside quotes or not. -/
  | parts (quoted : Bool)
  /-- Texts with `;` between them. -/
  | segments
  | reference
  /-- A property or a static call, and members of it. -/
  | value
  /-- What a property reference holds. -/
  | body
  /-- Arguments in parentheses, or nothing. -/
  | call
  | argumentList (opening close : Char)
  | arguments
  | argument
  | quoted
  /-- The transforms of an item; the last one holds the others. -/
  | transforms
  | separator

/-- What stands from one place to another, and the nodes that it is read as. -/
inductive Spells : Options → TextRule → Cursor → List Node → Cursor → Prop
  | noParts {o : Options} {q : Bool} {c : Cursor} : Spells o (.parts q) c [] c
  | literal {o : Options} {q : Bool} {c d e : Cursor} {nodes : List Node} {cs : List Char}
      (before : Spells o (.parts q) c nodes d) (hcs : d.Reads cs e) (hne : cs ≠ []) :
      Spells o (.parts q) c
        (nodes ++ [.mk ⟨d.offset, e.offset⟩ (.text (String.ofList cs) q)]) e
  | part {o : Options} {q : Bool} {c d e : Cursor} {nodes : List Node} {a : Node}
      (before : Spells o (.parts q) c nodes d) (h : Spells o .reference d [a] e) :
      Spells o (.parts q) c (nodes ++ [a]) e
  | segment {o : Options} {c d : Cursor} {nodes : List Node}
      (h : Spells o (.parts false) c nodes d) :
      Spells o .segments c [joined ⟨c.offset, d.offset⟩ false nodes] d
  | nextSegment {o : Options} {c d e f : Cursor} {segments nodes : List Node}
      (before : Spells o .segments c segments d) (hsep : d.Reads [';'] e)
      (h : Spells o (.parts false) e nodes f) :
      Spells o .segments c (segments ++ [joined ⟨e.offset, f.offset⟩ false nodes]) f
  | property {o : Options} {c d c₁ c₂ c₃ c₄ : Cursor} {b : Node} (hopen : c.Reads ['$', '('] c₁)
      (w₁ : Blanks c₁ c₂) (body : Spells o .body c₂ [b] c₃) (w₃ : Blanks c₃ c₄)
      (hclose : c₄.Reads [')'] d) :
      Spells o .reference c [.mk ⟨c.offset, d.offset⟩ (.property b)] d
  | item {o : Options} {c d c₁ c₂ c₃ c₄ c₅ c₆ c₇ : Cursor} {cs : List Char}
      {transform separator : List Node} (ho : o.items = true) (hopen : c.Reads ['@', '('] c₁)
      (w₁ : Blanks c₁ c₂) (hname : Named c₂ cs c₃) (w₃ : Blanks c₃ c₄)
      (ht : Spells o .transforms c₄ transform c₅) (hs : Spells o .separator c₅ separator c₆)
      (w₆ : Blanks c₆ c₇) (hclose : c₇.Reads [')'] d) :
      Spells o .reference c [.mk ⟨c.offset, d.offset⟩
        (.item (String.ofList cs) transform.head? separator.head?)] d
  | metadata {o : Options} {c d c₁ c₂ c₃ c₄ : Cursor} {cs : List Char} (ho : o.metadata = true)
      (hopen : c.Reads ['%', '('] c₁) (w₁ : Blanks c₁ c₂) (hname : Named c₂ cs c₃)
      (w₃ : Blanks c₃ c₄) (hclose : c₄.Reads [')'] d) :
      Spells o .reference c [.mk ⟨c.offset, d.offset⟩ (.metadata none (String.ofList cs))] d
  | ownedMetadata {o : Options} {c d c₁ c₂ c₃ c₄ c₅ c₆ c₇ c₈ : Cursor} {owner cs : List Char}
      (ho : o.metadata = true) (hopen : c.Reads ['%', '('] c₁) (w₁ : Blanks c₁ c₂)
      (howner : Named c₂ owner c₃) (w₃ : Blanks c₃ c₄) (hdot : c₄.Reads ['.'] c₅)
      (w₅ : Blanks c₅ c₆) (hname : Named c₆ cs c₇) (w₇ : Blanks c₇ c₈)
      (hclose : c₈.Reads [')'] d) :
      Spells o .reference c [.mk ⟨c.offset, d.offset⟩
        (.metadata (some (String.ofList owner)) (String.ofList cs))] d
  | name {o : Options} {c d : Cursor} {cs : List Char} (hname : Named c cs d) :
      Spells o .value c [.mk ⟨c.offset, d.offset⟩ (.propertyName (String.ofList cs))] d
  | staticCall {o : Options} {c d c₁ c₂ c₃ c₄ c₅ c₆ : Cursor} {cls cs : List Char}
      {arguments : List Node} (hclass : c.Reads ('[' :: (cls ++ [']'])) c₁) (w₁ : Blanks c₁ c₂)
      (hcolons : c₂.Reads [':', ':'] c₃) (w₃ : Blanks c₃ c₄) (hname : Named c₄ cs c₅)
      (w₅ : Blanks c₅ c₆) (ha : Spells o .call c₆ arguments d) :
      Spells o .value c [.mk ⟨c.offset, d.offset⟩ (.invocation
        (.mk ⟨c.offset, c₁.offset⟩ (.classReference (String.ofList (trim cls))))
        (some (.mk ⟨c₄.offset, c₅.offset⟩ (.functionName (String.ofList cs)))) arguments.head?)] d
  | member {o : Options} {c d c₁ c₂ c₃ c₄ c₅ : Cursor} {cs : List Char} {target : Node}
      {arguments : List Node} (before : Spells o .value c [target] c₁) (hdot : c₁.Reads ['.'] c₂)
      (w₂ : Blanks c₂ c₃) (hname : Named c₃ cs c₄) (w₄ : Blanks c₄ c₅)
      (ha : Spells o .call c₅ arguments d) :
      Spells o .value c [.mk ⟨target.span.start, d.offset⟩ (.invocation target
        (some (.mk ⟨c₃.offset, c₄.offset⟩ (.functionName (String.ofList cs)))) arguments.head?)] d
  | index {o : Options} {c d e : Cursor} {target arguments : Node}
      (before : Spells o .value c [target] d)
      (ha : Spells o (.argumentList '[' ']') d [arguments] e) :
      Spells o .value c
        [.mk ⟨target.span.start, e.offset⟩ (.invocation target none (some arguments))] e
  | afterValue {o : Options} {c d e : Cursor} {a : Node} (before : Spells o .value c [a] d)
      (w : Blanks d e) : Spells o .value c [a] e
  | body {o : Options} {c d : Cursor} {a : Node} (h : Spells o .value c [a] d) :
      Spells o .body c [a] d
  | registry {o : Options} {c d : Cursor} {lead cs : List Char}
      (hlead : sameIgnoringCase registryLead lead = true) (hcs : c.Reads (lead ++ cs) d)
      (hclose : ')' ∉ cs) : Spells o .body c
        [.mk ⟨c.offset, d.offset⟩ (.registryValue (String.ofList (trimEnd cs)))] d
  | noCall {o : Options} {c : Cursor} : Spells o .call c [] c
  | call {o : Options} {c d : Cursor} {a : Node}
      (h : Spells o (.argumentList '(' ')') c [a] d) : Spells o .call c [a] d
  | noArguments {o : Options} {opening close : Char} {c d c₁ c₂ : Cursor}
      (hopen : c.Reads [opening] c₁) (w₁ : Blanks c₁ c₂) (hclose : c₂.Reads [close] d) :
      Spells o (.argumentList opening close) c [.mk ⟨c.offset, d.offset⟩ (.argumentList [])] d
  | argumentList {o : Options} {opening close : Char} {c d c₁ c₂ c₃ : Cursor} {nodes : List Node}
      (hopen : c.Reads [opening] c₁) (w₁ : Blanks c₁ c₂) (ha : Spells o .arguments c₂ nodes c₃)
      (hclose : c₃.Reads [close] d) :
      Spells o (.argumentList opening close) c
        [.mk ⟨c.offset, d.offset⟩ (.argumentList nodes)] d
  | arguments {o : Options} {c d e : Cursor} {a : Node} (h : Spells o .argument c [a] d)
      (w : Blanks d e) : Spells o .arguments c [a] e
  | nextArgument {o : Options} {c d c₁ c₂ c₃ c₄ : Cursor} {nodes : List Node} {a : Node}
      (before : Spells o .arguments c nodes c₁) (hsep : c₁.Reads [','] c₂) (w₂ : Blanks c₂ c₃)
      (h : Spells o .argument c₃ [a] c₄) (w₄ : Blanks c₄ d) :
      Spells o .arguments c (nodes ++ [a]) d
  | quotedArgument {o : Options} {c d : Cursor} {a : Node} (h : Spells o .quoted c [a] d) :
      Spells o .argument c [a] d
  | referenceArgument {o : Options} {c d : Cursor} {a : Node}
      (h : Spells o .reference c [a] d) : Spells o .argument c [a] d
  | number {o : Options} {c d : Cursor} {cs : List Char} (hcs : c.Reads cs d)
      (hnumber : IsNumber cs) :
      Spells o .argument c [.mk ⟨c.offset, d.offset⟩ (.number (String.ofList cs))] d
  | word {o : Options} {c d : Cursor} {cs : List Char} (hname : Named c cs d) :
      Spells o .argument c [.mk ⟨c.offset, d.offset⟩ (.text (String.ofList cs) false)] d
  | quoted {o : Options} {c d e : Cursor} {q : Char} {cs : List Char} {nodes : List Node}
      (hq : isQuote q = true) (hcs : c.Reads (q :: (cs ++ [q])) d) (hinside : q ∉ cs)
      (h : Spells o (.parts true) ⟨c.offset + q.utf8Size, cs⟩ nodes e) (hend : e.rest = []) :
      Spells o .quoted c [joined ⟨c.offset + q.utf8Size, e.offset⟩ true nodes] d
  | noTransform {o : Options} {c : Cursor} : Spells o .transforms c [] c
  | quotedTransform {o : Options} {c d c₁ c₂ c₃ : Cursor} {a : Node}
      (before : Spells o .transforms c [] c₁) (harrow : c₁.Reads ['-', '>'] c₂)
      (w₂ : Blanks c₂ c₃) (h : Spells { o with metadata := true } .quoted c₃ [a] d) :
      Spells o .transforms c [a] d
  | functionTransform {o : Options} {c d c₁ c₂ c₃ c₄ c₅ : Cursor} {cs : List Char}
      {previous : List Node} {arguments : Node} (before : Spells o .transforms c previous c₁)
      (harrow : c₁.Reads ['-', '>'] c₂) (w₂ : Blanks c₂ c₃) (hname : Named c₃ cs c₄)
      (w₄ : Blanks c₄ c₅) (ha : Spells o (.argumentList '(' ')') c₅ [arguments] d) :
      Spells o .transforms c
        [.mk ⟨(previous.head?.map (·.span.start)).getD c₃.offset, d.offset⟩
          (.itemFunction previous.head?
            (.mk ⟨c₃.offset, c₄.offset⟩ (.functionName (String.ofList cs))) arguments)] d
  | afterTransforms {o : Options} {c d e : Cursor} {nodes : List Node}
      (before : Spells o .transforms c nodes d) (w : Blanks d e) : Spells o .transforms c nodes e
  | noSeparator {o : Options} {c : Cursor} : Spells o .separator c [] c
  | separator {o : Options} {c d c₁ c₂ : Cursor} {a : Node} (hcomma : c.Reads [','] c₁)
      (w₁ : Blanks c₁ c₂) (h : Spells o .quoted c₂ [a] d) : Spells o .separator c [a] d

theorem Blanks.reaches {a b : Cursor} (h : Blanks a b) : a.Reaches b := by
  obtain ⟨cs, hread, -⟩ := h
  exact hread.reaches

theorem Blanks.trans {a b c : Cursor} (hb : Blanks a b) (hc : Blanks b c) : Blanks a c := by
  obtain ⟨xs, hread, hxs⟩ := hb
  obtain ⟨ys, hmore, hys⟩ := hc
  refine ⟨xs ++ ys, hread.trans hmore, fun x hx => ?_⟩
  exact (List.mem_append.1 hx).elim (hxs x) (hys x)

end ProjectAnalysis.Expr
