import ProjectAnalysis.Proofs.TextGrammar

/-! Plain expressions as they are written. A phrase is what one rule of the grammar derives, with
the quotation marks that its nodes do not keep; it has a canonical text, without white space between
the parts of a reference, and the expression that this text is meant to be. -/
namespace ProjectAnalysis.Expr

/-- The same shape with other children. -/
def Shape.map {α β : Type} (f : α → β) : Shape α → Shape β
  | .text value quoted => .text value quoted
  | .number value => .number value
  | .property body => .property (f body)
  | .propertyName name => .propertyName name
  | .registryValue value => .registryValue value
  | .classReference name => .classReference name
  | .invocation target function arguments =>
    .invocation (f target) (function.map f) (arguments.map f)
  | .functionName name => .functionName name
  | .argumentList arguments => .argumentList (arguments.map f)
  | .item name transform separator => .item name (transform.map f) (separator.map f)
  | .itemFunction target function arguments =>
    .itemFunction (target.map f) (f function) (f arguments)
  | .metadata owner name => .metadata owner name
  | .concat parts => .concat (parts.map f)
  | .list segments => .list (segments.map f)
  | .not operand => .not (f operand)
  | .binary op left right => .binary op (f left) (f right)
  | .conditionFunction name arguments => .conditionFunction (f name) (f arguments)

/-- An expression without the places that it was read from. -/
inductive Tree
  | mk (shape : Shape Tree)

namespace Node

mutual

/-- The expression without its places. -/
def tree : Node → Tree
  | .mk _ shape => .mk (shapeTree shape)

def shapeTree : Shape Node → Shape Tree
  | .text value quoted => .text value quoted
  | .number value => .number value
  | .property body => .property body.tree
  | .propertyName name => .propertyName name
  | .registryValue value => .registryValue value
  | .classReference name => .classReference name
  | .invocation target function arguments =>
    .invocation target.tree (optionTree function) (optionTree arguments)
  | .functionName name => .functionName name
  | .argumentList arguments => .argumentList (listTree arguments)
  | .item name transform separator => .item name (optionTree transform) (optionTree separator)
  | .itemFunction target function arguments =>
    .itemFunction (optionTree target) function.tree arguments.tree
  | .metadata owner name => .metadata owner name
  | .concat parts => .concat (listTree parts)
  | .list segments => .list (listTree segments)
  | .not operand => .not operand.tree
  | .binary op left right => .binary op left.tree right.tree
  | .conditionFunction name arguments => .conditionFunction name.tree arguments.tree

def optionTree : Option Node → Option Tree
  | none => none
  | some n => some n.tree

def listTree : List Node → List Tree
  | [] => []
  | n :: ns => n.tree :: listTree ns

end

theorem optionTree_eq_map : (n : Option Node) → optionTree n = n.map tree
  | none => rfl
  | some _ => rfl

theorem listTree_eq_map : (ns : List Node) → listTree ns = ns.map tree
  | [] => rfl
  | n :: ns => congrArg (n.tree :: ·) (listTree_eq_map ns)

@[simp]
theorem tree_mk (span : Span) (shape : Shape Node) :
    (Node.mk span shape).tree = .mk (shape.map tree) := by
  rw [tree]
  cases shape <;> simp only [shapeTree, Shape.map, optionTree_eq_map, listTree_eq_map]

end Node

instance : DecidablePred IsName
  | [] => isFalse fun ⟨_, _, h, _⟩ => nomatch h
  | x :: xs =>
    letI : Decidable (∀ y ∈ xs, isNamePart y = true ∨ y = '-') := List.decidableBAll _ xs
    decidable_of_iff (isNameStart x = true ∧ ∀ y ∈ xs, isNamePart y = true ∨ y = '-')
      ⟨fun ⟨hx, hxs⟩ => ⟨x, xs, rfl, hx, hxs⟩,
        fun ⟨_, _, h, hx, hxs⟩ => by obtain ⟨rfl, rfl⟩ := List.cons.inj h; exact ⟨hx, hxs⟩⟩

instance : DecidablePred IsNumber
  | [] => isFalse fun ⟨_, _, h, _⟩ => nomatch h
  | x :: xs =>
    letI : Decidable (∀ y ∈ xs, isNumberPart y = true) := List.decidableBAll _ xs
    decidable_of_iff ((x.isDigit = true ∨ x = '-') ∧ ∀ y ∈ xs, isNumberPart y = true)
      ⟨fun ⟨hx, hxs⟩ => ⟨x, xs, rfl, hx, hxs⟩,
        fun ⟨_, _, h, hx, hxs⟩ => by obtain ⟨rfl, rfl⟩ := List.cons.inj h; exact ⟨hx, hxs⟩⟩

abbrev NameText := { cs : List Char // IsName cs }

abbrev NumberText := { cs : List Char // IsNumber cs }

/-- The name of a class, as it stands between brackets. -/
abbrev ClassText := { cs : List Char // cs ≠ [] ∧ trim cs = cs ∧ ']' ∉ cs }

/-- What names a registry value. It goes on up to the parenthesis, so a registry value has no
members. -/
abbrev RegistryText := { cs : List Char // trimEnd cs = cs ∧ ')' ∉ cs }

/-- A run of literal text: not empty, without references, and outside quotes without `;`. -/
structure IsRun (q : Bool) (cs : List Char) : Prop where
  ne_nil : cs ≠ []
  noReference : ∀ sigil ∈ ['$', '@', '%'], ¬[sigil, '('] <:+: cs
  noSegment : q = false → ';' ∉ cs

instance (q : Bool) (cs : List Char) : Decidable (IsRun q cs) :=
  letI (sigil : Char) : Decidable ([sigil, '('] <:+: cs) :=
    List.instDecidableIsInfixOfDecidableEq _ cs
  letI : Decidable (∀ sigil ∈ ['$', '@', '%'], ¬[sigil, '('] <:+: cs) := List.decidableBAll _ _
  decidable_of_iff (cs ≠ [] ∧ (∀ sigil ∈ ['$', '@', '%'], ¬[sigil, '('] <:+: cs) ∧
      (q = false → ';' ∉ cs))
    ⟨fun ⟨hne, hreference, hsegment⟩ => ⟨hne, hreference, hsegment⟩,
      fun h => ⟨h.ne_nil, h.noReference, h.noSegment⟩⟩

/-- What a rule of the grammar derives. -/
inductive Phrase : TextRule → Type
  | noParts {q : Bool} : Phrase (.parts q)
  | literal {q : Bool} (run : List Char) (more : Phrase (.parts q)) : Phrase (.parts q)
  | part {q : Bool} (reference : Phrase .reference) (more : Phrase (.parts q)) : Phrase (.parts q)
  | lastSegment (text : Phrase (.parts false)) : Phrase .segments
  | segment (text : Phrase (.parts false)) (more : Phrase .segments) : Phrase .segments
  | property (body : Phrase .body) : Phrase .reference
  | item (item : NameText) (transforms : Phrase .transforms) (separator : Phrase .separator) :
      Phrase .reference
  | metadata (name : NameText) : Phrase .reference
  | ownedMetadata (owner name : NameText) : Phrase .reference
  | registry (text : RegistryText) : Phrase .body
  | body (value : Phrase .value) : Phrase .body
  | name (property : NameText) : Phrase .value
  | staticCall (cls : ClassText) (function : NameText) (call : Phrase .call) : Phrase .value
  | member (target : Phrase .value) (function : NameText) (call : Phrase .call) : Phrase .value
  | index (target : Phrase .value) (list : Phrase (.argumentList '[' ']')) : Phrase .value
  | noCall : Phrase .call
  | call (list : Phrase (.argumentList '(' ')')) : Phrase .call
  | noArguments {opening close : Char} : Phrase (.argumentList opening close)
  | argumentList {opening close : Char} (arguments : Phrase .arguments) :
      Phrase (.argumentList opening close)
  | lastArgument (argument : Phrase .argument) : Phrase .arguments
  | argument (argument : Phrase .argument) (more : Phrase .arguments) : Phrase .arguments
  | quotedArgument (literal : Phrase .quoted) : Phrase .argument
  | referenceArgument (reference : Phrase .reference) : Phrase .argument
  | number (number : NumberText) : Phrase .argument
  | word (word : NameText) : Phrase .argument
  | quoted (mark : Char) (content : Phrase (.parts true)) : Phrase .quoted
  | noTransform : Phrase .transforms
  | quotedTransform (literal : Phrase .quoted) : Phrase .transforms
  | functionTransform (before : Phrase .transforms) (function : NameText)
      (list : Phrase (.argumentList '(' ')')) : Phrase .transforms
  | noSeparator : Phrase .separator
  | separator (literal : Phrase .quoted) : Phrase .separator

/-- What a rule of the grammar stands for. -/
abbrev TextRule.Meaning : TextRule → Type
  | .parts _ | .segments | .arguments => List Tree
  | .call | .transforms | .separator => Option Tree
  | .reference | .value | .body | .argumentList _ _ | .argument | .quoted => Tree

/-- Parts of a text as one expression. -/
def Tree.joined (quoted : Bool) : List Tree → Tree
  | [] => .mk (.text "" quoted)
  | [tree] => tree
  | trees => .mk (.concat trees)

namespace Phrase

/-- The canonical text. -/
def print : {rule : TextRule} → Phrase rule → List Char
  | _, .noParts => []
  | _, .literal run more => run ++ more.print
  | _, .part r more => r.print ++ more.print
  | _, .lastSegment text => text.print
  | _, .segment text more => text.print ++ ';' :: more.print
  | _, .property b => '$' :: '(' :: (b.print ++ [')'])
  | _, .item x ts s => '@' :: '(' :: (x.1 ++ (ts.print ++ (s.print ++ [')'])))
  | _, .metadata x => '%' :: '(' :: (x.1 ++ [')'])
  | _, .ownedMetadata owner x => '%' :: '(' :: (owner.1 ++ '.' :: (x.1 ++ [')']))
  | _, .registry text => "Registry:".toList ++ text.1
  | _, .body v => v.print
  | _, .name x => x.1
  | _, .staticCall cls f c => '[' :: (cls.1 ++ ']' :: ':' :: ':' :: (f.1 ++ c.print))
  | _, .member target f c => target.print ++ '.' :: (f.1 ++ c.print)
  | _, .index target l => target.print ++ l.print
  | _, .noCall => []
  | _, .call l => l.print
  | .argumentList opening close, .noArguments => [opening, close]
  | .argumentList opening close, .argumentList as => opening :: (as.print ++ [close])
  | _, .lastArgument a => a.print
  | _, .argument a more => a.print ++ ',' :: more.print
  | _, .quotedArgument l => l.print
  | _, .referenceArgument r => r.print
  | _, .number x => x.1
  | _, .word x => x.1
  | _, .quoted mark content => mark :: (content.print ++ [mark])
  | _, .noTransform => []
  | _, .quotedTransform l => '-' :: '>' :: l.print
  | _, .functionTransform before f l => before.print ++ '-' :: '>' :: (f.1 ++ l.print)
  | _, .noSeparator => []
  | _, .separator l => ',' :: l.print

/-- What the text is meant to be. -/
def meaning : {rule : TextRule} → Phrase rule → rule.Meaning
  | _, .noParts => []
  | .parts q, .literal run more => .mk (.text (String.ofList run) q) :: more.meaning
  | _, .part r more => r.meaning :: more.meaning
  | _, .lastSegment text => [.joined false text.meaning]
  | _, .segment text more => .joined false text.meaning :: more.meaning
  | _, .property b => .mk (.property b.meaning)
  | _, .item x ts s => .mk (.item (String.ofList x.1) ts.meaning s.meaning)
  | _, .metadata x => .mk (.metadata none (String.ofList x.1))
  | _, .ownedMetadata owner x => .mk (.metadata (some (String.ofList owner.1)) (String.ofList x.1))
  | _, .registry text => .mk (.registryValue (String.ofList text.1))
  | _, .body v => v.meaning
  | _, .name x => .mk (.propertyName (String.ofList x.1))
  | _, .staticCall cls f c =>
    .mk (.invocation (.mk (.classReference (String.ofList cls.1)))
      (some (.mk (.functionName (String.ofList f.1)))) c.meaning)
  | _, .member target f c =>
    .mk (.invocation target.meaning (some (.mk (.functionName (String.ofList f.1)))) c.meaning)
  | _, .index target l => .mk (.invocation target.meaning none (some l.meaning))
  | _, .noCall => none
  | _, .call l => some l.meaning
  | _, .noArguments => .mk (.argumentList [])
  | _, .argumentList as => .mk (.argumentList as.meaning)
  | _, .lastArgument a => [a.meaning]
  | _, .argument a more => a.meaning :: more.meaning
  | _, .quotedArgument l => l.meaning
  | _, .referenceArgument r => r.meaning
  | _, .number x => .mk (.number (String.ofList x.1))
  | _, .word x => .mk (.text (String.ofList x.1) false)
  | _, .quoted _ content => .joined true content.meaning
  | _, .noTransform => none
  | _, .quotedTransform l => some l.meaning
  | _, .functionTransform before f l =>
    some (.mk (.itemFunction before.meaning (.mk (.functionName (String.ofList f.1))) l.meaning))
  | _, .noSeparator => none
  | _, .separator l => some l.meaning

/-- The expression of a whole text; a single segment stands for itself. -/
def expression (p : Phrase .segments) : Tree :=
  match p.meaning with
  | [tree] => tree
  | trees => .mk (.list trees)

def beginsLiteral : {rule : TextRule} → Phrase rule → Bool
  | _, .literal _ _ => true
  | _, _ => false

/-- Literal text stands in runs that are as long as can be, and no quotation mark stands in the text
that it encloses. -/
def WellFormed : {rule : TextRule} → Phrase rule → Prop
  | _, .noParts | _, .metadata _ | _, .ownedMetadata _ _ | _, .registry _ | _, .name _ | _, .noCall
  | _, .noArguments | _, .number _ | _, .word _ | _, .noTransform | _, .noSeparator => True
  | .parts q, .literal run more => IsRun q run ∧ more.beginsLiteral = false ∧ more.WellFormed
  | _, .part r more => r.WellFormed ∧ more.WellFormed
  | _, .lastSegment text => text.WellFormed
  | _, .segment text more => text.WellFormed ∧ more.WellFormed
  | _, .property b => b.WellFormed
  | _, .item _ ts s => ts.WellFormed ∧ s.WellFormed
  | _, .body v => v.WellFormed
  | _, .staticCall _ _ c => c.WellFormed
  | _, .member target _ c => target.WellFormed ∧ c.WellFormed
  | _, .index target l => target.WellFormed ∧ l.WellFormed
  | _, .call l => l.WellFormed
  | _, .argumentList as => as.WellFormed
  | _, .lastArgument a => a.WellFormed
  | _, .argument a more => a.WellFormed ∧ more.WellFormed
  | _, .quotedArgument l => l.WellFormed
  | _, .referenceArgument r => r.WellFormed
  | _, .quoted mark content => isQuote mark = true ∧ mark ∉ content.print ∧ content.WellFormed
  | _, .quotedTransform l => l.WellFormed
  | _, .functionTransform before _ l => before.WellFormed ∧ l.WellFormed
  | _, .separator l => l.WellFormed

end Phrase

end ProjectAnalysis.Expr
