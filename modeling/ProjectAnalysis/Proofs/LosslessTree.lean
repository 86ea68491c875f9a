import ProjectAnalysis.ExprParse
import ProjectAnalysis.Proofs.LexemeEnd
import ProjectAnalysis.Proofs.QuotedTransform

/-! What the spans of a tree say about its text. Nothing of a text gets lost when it is read: the
segments of a list and the parts of a text stand right behind one another, what stands in quotes is
all of what the quotes hold, and the value of a literal, a number or a name is written at its span.
Between the arguments of a call there is nothing but white space and commas. -/
namespace ProjectAnalysis.Expr

/-- Nodes from one offset to another, with just the separator between one and the next. -/
inductive Tiled (text sep : List Char) : Nat → List Node → Nat → Prop
  | last {a : Node} (h : a.span.start ≤ a.span.stop) : Tiled text sep a.span.start [a] a.span.stop
  | next {a : Node} {more : List Node} {mid hi : Nat} (h : a.span.start ≤ a.span.stop)
      (hsep : (Span.mk a.span.stop mid).slice? text = some sep)
      (behind : Tiled text sep mid more hi) : Tiled text sep a.span.start (a :: more) hi

/-- Only white space stands between the two offsets. -/
def Gap (text : List Char) (lo hi : Nat) : Prop :=
  ∃ ws, (Span.mk lo hi).slice? text = some ws ∧ ∀ x ∈ ws, isBlank x = true

/-- From one offset to another there is a quote, the text of the node without that quote, and the
quote again. -/
def InQuotes (text : List Char) (lo : Nat) (a : Node) (hi : Nat) : Prop :=
  ∃ q cs, isQuote q = true ∧ q ∉ cs ∧ (Span.mk lo a.span.start).slice? text = some [q] ∧
    a.span.slice? text = some cs ∧ (Span.mk a.span.stop hi).slice? text = some [q]

/-- An argument from one offset to another, as it is or in quotes. -/
inductive Written (text : List Char) : Nat → Node → Nat → Prop
  | bare {a : Node} {x : Char} {cs : List Char} (h : a.span.slice? text = some (x :: cs))
      (hx : isQuote x = false) : Written text a.span.start a a.span.stop
  | quoted {a : Node} {lo hi : Nat} (h : InQuotes text lo a hi) : Written text lo a hi

/-- Arguments from one offset to another, each with the white space behind it, and a comma and white
space before the next. -/
inductive WrittenAll (text : List Char) : Nat → List Node → Nat → Prop
  | first {a : Node} {lo mid hi : Nat} (h : Written text lo a mid) (behind : Gap text mid hi) :
      WrittenAll text lo [a] hi
  | next {a : Node} {before : List Node} {lo k l m n hi : Nat}
      (hbefore : WrittenAll text lo before k)
      (hcomma : (Span.mk k l).slice? text = some [',']) (gap : Gap text l m)
      (h : Written text m a n) (behind : Gap text n hi) : WrittenAll text lo (before ++ [a]) hi

/-- A list of arguments: one character that opens it and one that closes it, and between them white
space and the arguments. -/
def Bracketed (text : List Char) (span : Span) (arguments : List Node) : Prop :=
  ∃ opening close lo mid hi, (Span.mk span.start lo).slice? text = some [opening] ∧
    Gap text lo mid ∧ ((arguments = [] ∧ mid = hi) ∨ WrittenAll text mid arguments hi) ∧
    (Span.mk hi span.stop).slice? text = some [close]

/-- A reference is written from its sigil on. -/
def FromSigil (text : List Char) (span : Span) : Prop :=
  ∃ x cs, isSigil x = true ∧ span.slice? text = some (x :: cs)

/-- How a node itself, given its children, stands to the text at its span. A transform that is no
call of a function is a literal in quotes, and so is every separator. -/
def Exact (text : List Char) (n : Node) : Prop :=
  match n.shape with
  | .text value _ | .number value | .propertyName value | .functionName value =>
    n.span.slice? text = some value.toList
  | .concat parts => Tiled text [] n.span.start parts n.span.stop
  | .argumentList arguments => Bracketed text n.span arguments
  | .property _ | .metadata _ _ => FromSigil text n.span
  | .item _ transform separator => FromSigil text n.span ∧
    (∀ t ∈ transform, t.shape.isItemFunction = false → ∃ lo hi, InQuotes text lo t hi) ∧
      ∀ s ∈ separator, ∃ lo hi, InQuotes text lo s hi
  | .itemFunction target _ _ =>
    ∀ t ∈ target, t.shape.isItemFunction = false → ∃ lo hi, InQuotes text lo t hi
  | _ => True

/-- The segments of a list; any other text is one segment. -/
def Node.segments (n : Node) : List Node :=
  match n.shape with
  | .list segments => segments
  | _ => [n]

/-- A tree that loses nothing of its text. -/
structure Lossless (text : List Char) (root : Node) : Prop where
  span_eq : root.span = ⟨0, byteLength text⟩
  segments : Tiled text [';'] 0 root.segments (byteLength text)
  exact : ∀ n ∈ root.preorder, Exact text n

variable {text cs : List Char} {o : Options} {rule : TextRule} {c d e : Cursor} {a : Node}
  {xs ys : List Node} {q : Bool}

theorem Inside.slice?_ofList (hc : Inside text c) (h : c.Reads cs d) :
    (Span.mk c.offset d.offset).slice? text = some (String.ofList cs).toList := by
  rw [String.toList_ofList]
  exact hc.slice?_eq h

theorem Inside.gap (hc : Inside text c) (w : Blanks c d) : Gap text c.offset d.offset := by
  obtain ⟨ws, hread, hws⟩ := w
  exact ⟨ws, hc.slice?_eq hread, hws⟩

theorem tiled_last {sep : List Char} {lo hi : Nat} (ha : a.span = ⟨lo, hi⟩) (h : lo ≤ hi) :
    Tiled text sep lo [a] hi := by
  have hle : a.span.start ≤ a.span.stop := by
    rw [ha]
    exact h
  have hlast : Tiled text sep a.span.start [a] a.span.stop := .last hle
  rwa [ha] at hlast

theorem Tiled.snoc {sep : List Char} {lo mid next hi : Nat} (h : Tiled text sep lo xs mid)
    (hsep : (Span.mk mid next).slice? text = some sep) (ha : a.span = ⟨next, hi⟩)
    (hle : next ≤ hi) : Tiled text sep lo (xs ++ [a]) hi := by
  induction h with
  | last h => exact .next h hsep (tiled_last ha hle)
  | next h hsep' _ ih => exact .next h hsep' (ih hsep)

theorem Tiled.span_eq {sep : List Char} {lo hi : Nat} (h : Tiled text sep lo [a] hi) :
    a.span = ⟨lo, hi⟩ := by
  cases h with
  | last _ => rfl
  | next _ _ behind => cases behind

theorem Tiled.ne_nil {sep : List Char} {lo hi : Nat} (h : Tiled text sep lo xs hi) : xs ≠ [] := by
  cases h <;> exact List.cons_ne_nil _ _

/-- A part behind other parts, or the first one. -/
theorem tiled_part (hc : Inside text c)
    (h : (xs = [] ∧ c = d) ∨ Tiled text [] c.offset xs d.offset) (hcd : c.Reaches d)
    (hde : d.Reaches e) (ha : a.span = ⟨d.offset, e.offset⟩) :
    Tiled text [] c.offset (xs ++ [a]) e.offset := by
  rcases h with ⟨rfl, rfl⟩ | h
  · exact tiled_last ha hde.offset_le
  · exact h.snoc ((hc.reaches hcd).slice?_eq d.reads_nil) ha hde.offset_le

theorem Spells.tiled_parts (h : Spells o (.parts q) c xs d) (hc : Inside text c) :
    (xs = [] ∧ c = d) ∨ Tiled text [] c.offset xs d.offset := by
  generalize hrule : TextRule.parts q = rule at h
  induction h with
  | noParts => exact Or.inl ⟨rfl, rfl⟩
  | literal before hcs _ ih =>
    exact Or.inr (tiled_part hc (ih hc hrule) before.reaches hcs.reaches rfl)
  | part before h ih _ =>
    exact Or.inr (tiled_part hc (ih hc hrule) before.reaches h.reaches h.isReference.2)
  | _ => cases hrule

/-- Parts become one node from the beginning of the first to the end of the last. -/
theorem Spells.span_joined (h : Spells o (.parts q) c xs d) (hc : Inside text c) :
    (joined ⟨c.offset, d.offset⟩ q xs).span = ⟨c.offset, d.offset⟩ := by
  unfold joined
  split
  · rfl
  · rcases h.tiled_parts hc with ⟨hnil, -⟩ | htiled
    · cases hnil
    · exact htiled.span_eq
  · rfl

theorem Spells.inQuotes (h : Spells o .quoted c [a] d) (hc : Inside text c) :
    InQuotes text c.offset a d.offset := by
  cases h with
  | @quoted _ _ _ e q cs nodes hq hcs hinside h hend =>
    let first : Cursor := ⟨c.offset + q.utf8Size, cs ++ (q :: d.rest)⟩
    let last : Cursor := ⟨first.offset + byteLength cs, q :: d.rest⟩
    have hopen : c.Reads [q] first := ⟨by rw [hcs.1]; simp [first], by simp [first]⟩
    have hcontent : first.Reads cs last := ⟨rfl, rfl⟩
    have hclose : last.Reads [q] d := by
      refine ⟨rfl, ?_⟩
      rw [hcs.2]
      simp [last, first, Nat.add_assoc]
    have hfirst := hc.reaches hopen.reaches
    -- The text inside is read by itself, up to its end.
    have hstop : e.offset = last.offset := by
      obtain ⟨read, hread, hoffset⟩ := h.reaches
      rw [hend, List.append_nil] at hread
      subst hread
      exact hoffset
    have hspan := h.span_joined (hc.quoted hcs h.reaches).1
    rw [hstop] at hspan ⊢
    refine ⟨q, cs, hq, hinside, ?_, ?_, ?_⟩
    · rw [hspan]
      exact hc.slice?_eq hopen
    · rw [hspan]
      exact hfirst.slice?_eq hcontent
    · rw [hspan]
      exact (hfirst.reaches hcontent.reaches).slice?_eq hclose

/-- A reference begins with its sigil. -/
theorem Spells.sigil (h : Spells o .reference c [a] d) :
    ∃ x tail, isSigil x = true ∧ c.Reads (x :: tail) d := by
  obtain ⟨cs, hread⟩ := h.reaches
  have hbegins {x y : Char} {e : Cursor} (hx : isSigil x = true) (hopen : c.Reads [x, y] e)
      (hd : e.Reaches d) : ∃ x tail, isSigil x = true ∧ c.Reads (x :: tail) d := by
    obtain ⟨tail, htail⟩ := hd
    exact ⟨x, _, hx, hopen.trans htail⟩
  cases h with
  | property hopen w₁ body w₃ hclose =>
    exact hbegins rfl hopen
      (w₁.reaches.trans (body.reaches.trans (w₃.reaches.trans hclose.reaches)))
  | item _ hopen w₁ hname w₃ ht hs w₆ hclose =>
    have hhead := w₁.reaches.trans (hname.1.reaches.trans w₃.reaches)
    exact hbegins rfl hopen
      (hhead.trans (ht.reaches.trans (hs.reaches.trans (w₆.reaches.trans hclose.reaches))))
  | metadata _ hopen w₁ hname w₃ hclose =>
    exact hbegins rfl hopen
      (w₁.reaches.trans (hname.1.reaches.trans (w₃.reaches.trans hclose.reaches)))
  | ownedMetadata _ hopen w₁ howner w₃ hdot w₅ hname w₇ hclose =>
    have hhead := w₁.reaches.trans (howner.1.reaches.trans (w₃.reaches.trans hdot.reaches))
    have htail := hname.1.reaches.trans (w₇.reaches.trans hclose.reaches)
    exact hbegins rfl hopen (hhead.trans (w₅.reaches.trans htail))

theorem Spells.fromSigil (h : Spells o .reference c [a] d) (hc : Inside text c) :
    FromSigil text a.span := by
  obtain ⟨x, tail, hx, hread⟩ := h.sigil
  rw [h.isReference.2]
  exact ⟨x, tail, hx, hc.slice?_eq hread⟩

/-- So its span is not empty. -/
theorem FromSigil.start_lt_stop {span : Span} (h : FromSigil text span) :
    span.start < span.stop := by
  obtain ⟨x, cs, -, hslice⟩ := h
  unfold Span.slice? at hslice
  split at hslice
  · rename_i hle
    refine Nat.lt_of_le_of_ne hle fun heq => ?_
    obtain ⟨rest, -, htake⟩ := Option.bind_eq_some_iff.1 hslice
    rw [heq, Nat.sub_self, takeBytes?] at htake
    cases htake
  · cases hslice

theorem Exact.metadata (h : Exact text a) (hmetadata : a.shape.isMetadata = true) :
    FromSigil text a.span := by
  obtain ⟨span, shape⟩ := a
  cases shape with
  | metadata => exact h
  | _ => cases hmetadata

theorem written_bare {x : Char} (hc : Inside text c) (hread : c.Reads (x :: cs) d)
    (hx : isQuote x = false) (ha : a.span = ⟨c.offset, d.offset⟩) :
    Written text c.offset a d.offset := by
  have hslice := hc.slice?_eq hread
  rw [← ha] at hslice
  have hwritten := Written.bare hslice hx
  rwa [ha] at hwritten

theorem Spells.written (h : Spells o .argument c [a] d) (hc : Inside text c) :
    Written text c.offset a d.offset := by
  cases h with
  | quotedArgument h => exact .quoted (h.inQuotes hc)
  | referenceArgument h =>
    obtain ⟨x, tail, hx, hread⟩ := h.sigil
    exact written_bare hc hread (isQuote_of_isSigil hx) h.isReference.2
  | number hread hnumber =>
    obtain ⟨x, xs, rfl, hx, -⟩ := hnumber
    exact written_bare hc hread (isPlain_of_start (hx.imp id Or.inl)).1 rfl
  | word hname =>
    obtain ⟨hread, x, xs, rfl, hx, -⟩ := hname
    exact written_bare hc hread (isPlain_of_start (Or.inr (Or.inr hx))).1 rfl

theorem Spells.writtenAll (h : Spells o .arguments c xs d) (hc : Inside text c) :
    WrittenAll text c.offset xs d.offset := by
  generalize hrule : TextRule.arguments = rule at h
  induction h with
  | arguments h w => exact .first (h.written hc) ((hc.reaches h.reaches).gap w)
  | nextArgument before hsep w₂ h w₄ ih _ =>
    have h₁ := hc.reaches before.reaches
    have h₂ := h₁.reaches hsep.reaches
    have h₃ := h₂.reaches w₂.reaches
    exact .next (ih hc hrule) (h₁.slice?_eq hsep) (h₂.gap w₂) (h.written h₃)
      ((h₃.reaches h.reaches).gap w₄)
  | _ => cases hrule

theorem Spells.bracketed {opening close : Char} (h : Spells o (.argumentList opening close) c [a] d)
    (hc : Inside text c) : Exact text a := by
  cases h with
  | noArguments hopen w₁ hclose =>
    have h₁ := hc.reaches hopen.reaches
    exact ⟨opening, close, _, _, _, hc.slice?_eq hopen, h₁.gap w₁, Or.inl ⟨rfl, rfl⟩,
      (h₁.reaches w₁.reaches).slice?_eq hclose⟩
  | argumentList hopen w₁ ha hclose =>
    have h₁ := hc.reaches hopen.reaches
    have h₂ := h₁.reaches w₁.reaches
    exact ⟨opening, close, _, _, _, hc.slice?_eq hopen, h₁.gap w₁, Or.inr (ha.writtenAll h₂),
      (h₂.reaches ha.reaches).slice?_eq hclose⟩

/-- The first transform of an item calls a function, or it stands in quotes. -/
theorem Spells.transform_inQuotes (h : Spells o .transforms c xs d) (hc : Inside text c) :
    ∀ t ∈ xs, t.shape.isItemFunction = false → ∃ lo hi, InQuotes text lo t hi := by
  generalize hrule : TextRule.transforms = rule at h
  induction h with
  | noTransform => exact List.forall_mem_nil _
  | quotedTransform before harrow w₂ h _ _ =>
    refine List.forall_mem_singleton.2 fun _ => ⟨_, _, h.inQuotes ?_⟩
    exact ((hc.reaches before.reaches).reaches harrow.reaches).reaches w₂.reaches
  | functionTransform => exact List.forall_mem_singleton.2 nofun
  | afterTransforms _ _ ih => exact ih hc hrule
  | _ => cases hrule

theorem Spells.separator_inQuotes (h : Spells o .separator c xs d) (hc : Inside text c) :
    ∀ s ∈ xs, ∃ lo hi, InQuotes text lo s hi := by
  cases h with
  | noSeparator => exact List.forall_mem_nil _
  | separator hcomma w₁ h =>
    refine List.forall_mem_singleton.2 ⟨_, _, h.inQuotes ?_⟩
    exact (hc.reaches hcomma.reaches).reaches w₁.reaches

/-- All nodes of some trees have the property. -/
def Throughout (P : Node → Prop) (xs : List Node) : Prop :=
  ∀ a ∈ xs, ∀ n ∈ a.preorder, P n

section
variable {P : Node → Prop}

theorem throughout_nil : Throughout P [] :=
  List.forall_mem_nil _

theorem Throughout.append (hx : Throughout P xs) (hy : Throughout P ys) :
    Throughout P (xs ++ ys) :=
  List.forall_mem_append.2 ⟨hx, hy⟩

theorem Throughout.head? (h : Throughout P xs) : Throughout P xs.head?.toList := by
  cases xs with
  | nil => exact h
  | cons a xs => exact List.forall_mem_singleton.2 (List.forall_mem_cons.1 h).1

/-- A node that has the property, and so have all below it. -/
theorem throughout_node (ha : P a) (h : Throughout P a.children) : Throughout P [a] := by
  refine List.forall_mem_singleton.2 fun m hm => ?_
  rcases Node.mem_preorder_iff.1 hm with rfl | ⟨c, hc, hm⟩
  · exact ha
  · exact h c hc m hm

end

/-- Every node of some trees stands to the text as it should. -/
def ExactAll (text : List Char) (xs : List Node) : Prop :=
  ∀ a ∈ xs, ∀ n ∈ a.preorder, Exact text n

theorem exactAll_nil : ExactAll text [] :=
  throughout_nil

theorem ExactAll.append (hx : ExactAll text xs) (hy : ExactAll text ys) :
    ExactAll text (xs ++ ys) :=
  Throughout.append hx hy

theorem ExactAll.head? (h : ExactAll text xs) : ExactAll text xs.head?.toList :=
  Throughout.head? h

theorem exactAll_node (ha : Exact text a) (h : ExactAll text a.children) : ExactAll text [a] :=
  throughout_node ha h

/-- A node that stands to the text as it should, and so do all below it. -/
theorem exact_of_children (ha : Exact text a) (h : ExactAll text a.children) :
    ∀ n ∈ a.preorder, Exact text n :=
  List.forall_mem_singleton.1 (exactAll_node ha h)

theorem Spells.exactAll_joined (h : Spells o (.parts q) c xs d) (hc : Inside text c)
    (hxs : ExactAll text xs) : ExactAll text [joined ⟨c.offset, d.offset⟩ q xs] := by
  have htiled := h.tiled_parts hc
  unfold joined
  split
  · rcases htiled with ⟨-, rfl⟩ | htiled
    · exact exactAll_node (hc.slice?_eq c.reads_nil) exactAll_nil
    · exact absurd rfl htiled.ne_nil
  · exact hxs
  · rcases htiled with ⟨rfl, -⟩ | htiled
    · contradiction
    · exact exactAll_node htiled hxs

/-- The name of a function and what it is called with. -/
theorem exactAll_call (hc : Inside text c) (hname : Named c cs d) (h : ExactAll text ys) :
    ExactAll text (.mk ⟨c.offset, d.offset⟩ (.functionName (String.ofList cs)) :: ys) := by
  have hfunction : Exact text (.mk ⟨c.offset, d.offset⟩ (.functionName (String.ofList cs))) :=
    hc.slice?_ofList hname.1
  exact (exactAll_node hfunction exactAll_nil).append h

/-- Every node that the grammar spells stands to the text as it should. -/
theorem Spells.exactAll (h : Spells o rule c xs d) (hc : Inside text c) : ExactAll text xs := by
  -- Every construct adds one node to those that stand inside it, each at its own place.
  induction h with
  | noParts | noCall | noTransform | noSeparator => exact exactAll_nil
  | body _ ih | call _ ih | quotedArgument _ ih | referenceArgument _ ih | afterValue _ _ ih
  | afterTransforms _ _ ih | arguments _ _ ih => exact ih hc
  | literal before hcs _ ih =>
    have hliteral := (hc.reaches before.reaches).slice?_ofList hcs
    exact (ih hc).append (exactAll_node hliteral exactAll_nil)
  | part before _ ihbefore ih => exact (ihbefore hc).append (ih (hc.reaches before.reaches))
  | segment h ih => exact h.exactAll_joined hc (ih hc)
  | nextSegment before hsep h ihbefore ih =>
    have hsegment := hc.reaches (before.reaches.trans hsep.reaches)
    exact (ihbefore hc).append (h.exactAll_joined hsegment (ih hsegment))
  | property hopen w₁ hbody w₃ hclose ih =>
    refine exactAll_node ((Spells.property hopen w₁ hbody w₃ hclose).fromSigil hc) ?_
    exact ih (hc.reaches (hopen.reaches.trans w₁.reaches))
  | item ho hopen w₁ hname w₃ ht hs w₆ hclose iht ihs =>
    have hhead := hopen.reaches.trans (w₁.reaches.trans (hname.1.reaches.trans w₃.reaches))
    have hfirst := hc.reaches hhead
    have hsecond := hfirst.reaches ht.reaches
    have hsigil := (Spells.item ho hopen w₁ hname w₃ ht hs w₆ hclose).fromSigil hc
    refine exactAll_node ⟨hsigil, ?_, ?_⟩ ((iht hfirst).head?.append (ihs hsecond).head?)
    · exact fun t hmem => ht.transform_inQuotes hfirst t (List.mem_of_mem_head? hmem)
    · exact fun s hmem => hs.separator_inQuotes hsecond s (List.mem_of_mem_head? hmem)
  | metadata ho hopen w₁ hname w₃ hclose =>
    exact exactAll_node ((Spells.metadata ho hopen w₁ hname w₃ hclose).fromSigil hc) exactAll_nil
  | ownedMetadata ho hopen w₁ howner w₃ hdot w₅ hname w₇ hclose =>
    have hmetadata := Spells.ownedMetadata ho hopen w₁ howner w₃ hdot w₅ hname w₇ hclose
    exact exactAll_node (hmetadata.fromSigil hc) exactAll_nil
  | registry => exact exactAll_node trivial exactAll_nil
  | name hname | word hname => exact exactAll_node (hc.slice?_ofList hname.1) exactAll_nil
  | staticCall hclass w₁ hcolons w₃ hname w₅ _ ih =>
    have hbetween := w₁.reaches.trans (hcolons.reaches.trans w₃.reaches)
    have hfunction := hc.reaches (hclass.reaches.trans hbetween)
    have harguments := ih (hfunction.reaches (hname.1.reaches.trans w₅.reaches))
    refine exactAll_node trivial (List.forall_mem_cons.2 ⟨?_, ?_⟩)
    · exact exact_of_children trivial exactAll_nil
    · exact exactAll_call hfunction hname harguments.head?
  | member before hdot w₂ hname w₄ _ ihbefore ih =>
    have hfunction := hc.reaches (before.reaches.trans (hdot.reaches.trans w₂.reaches))
    have harguments := ih (hfunction.reaches (hname.1.reaches.trans w₄.reaches))
    exact exactAll_node trivial
      ((ihbefore hc).append (exactAll_call hfunction hname harguments.head?))
  | index before _ ihbefore ih =>
    exact exactAll_node trivial ((ihbefore hc).append (ih (hc.reaches before.reaches)))
  | @noArguments o _ _ _ _ _ _ hopen w₁ hclose =>
    have hlist := Spells.noArguments (o := o) hopen w₁ hclose
    exact exactAll_node (hlist.bracketed hc) exactAll_nil
  | argumentList hopen w₁ ha hclose ih =>
    refine exactAll_node ((Spells.argumentList hopen w₁ ha hclose).bracketed hc) ?_
    exact ih (hc.reaches (hopen.reaches.trans w₁.reaches))
  | nextArgument before hsep w₂ _ _ ihbefore ih =>
    have hbetween := before.reaches.trans (hsep.reaches.trans w₂.reaches)
    exact (ihbefore hc).append (ih (hc.reaches hbetween))
  | number hcs _ => exact exactAll_node (hc.slice?_ofList hcs) exactAll_nil
  | quoted _ hcs _ h _ ih =>
    have hinside := (hc.quoted hcs h.reaches).1
    exact h.exactAll_joined hinside (ih hinside)
  | quotedTransform before harrow w₂ _ _ ih =>
    exact ih (hc.reaches (before.reaches.trans (harrow.reaches.trans w₂.reaches)))
  | functionTransform before harrow w₂ hname w₄ _ ihbefore ih =>
    have hbetween := harrow.reaches.trans w₂.reaches
    have hfunction := hc.reaches (before.reaches.trans hbetween)
    have harguments := ih (hfunction.reaches (hname.1.reaches.trans w₄.reaches))
    refine exactAll_node ?_
      ((ihbefore hc).head?.append (exactAll_call hfunction hname harguments))
    exact fun t hmem => before.transform_inQuotes hc t (List.mem_of_mem_head? hmem)
  | separator hcomma w₁ _ ih => exact ih (hc.reaches (hcomma.reaches.trans w₁.reaches))

/-- Parts become no list. -/
theorem Spells.segments_joined {span : Span} (h : Spells o (.parts q) c xs d) :
    (joined span q xs).segments = [joined span q xs] := by
  unfold Node.segments
  rcases h.shape_joined span with ⟨value, hshape⟩ | ⟨parts, hshape⟩ | hreference
  · rw [hshape]
  · rw [hshape]
  · split
    · rename_i hshape
      rw [hshape] at hreference
      cases hreference
    · rfl

theorem Spells.tiled_segments (h : Spells o .segments c xs d) (hc : Inside text c) :
    Tiled text [';'] c.offset xs d.offset := by
  generalize hrule : TextRule.segments = rule at h
  induction h with
  | segment h _ => exact tiled_last (h.span_joined hc) h.reaches.offset_le
  | nextSegment before hsep h ih _ =>
    have hbehind := hc.reaches before.reaches
    have hsegment := hbehind.reaches hsep.reaches
    exact (ih hc hrule).snoc (hbehind.slice?_eq hsep) (h.span_joined hsegment)
      h.reaches.offset_le
  | _ => cases hrule

theorem Spells.segments_of_mem (h : Spells o .segments c xs d) :
    ∀ a ∈ xs, a.segments = [a] := by
  generalize hrule : TextRule.segments = rule at h
  induction h with
  | segment h _ => exact List.forall_mem_singleton.2 h.segments_joined
  | nextSegment _ _ h ih _ =>
    exact List.forall_mem_append.2 ⟨ih hrule, List.forall_mem_singleton.2 h.segments_joined⟩
  | _ => cases hrule

theorem exact_of_parse {text : String} {n : Node} (ho : o.condition = false)
    (h : parse o text = .ok n) : ∀ m ∈ n.preorder, Exact text.toList m := by
  obtain ⟨d, hsegments⟩ := (parse_eq_ok ho).1 h
  obtain ⟨-, nodes, hspells, hnodes⟩ := spells_segments hsegments
  have hexact := hspells.exactAll (inside_ofText text.toList)
  rcases hnodes with rfl | rfl
  · exact hexact n List.mem_cons_self
  · exact exact_of_children trivial hexact

/-- Every text that is read as an expression is read without loss. -/
theorem parse_lossless {text : String} {n : Node} (ho : o.condition = false)
    (h : parse o text = .ok n) : Lossless text.toList n := by
  have hstart : Inside text.toList (.ofText text.toList) := inside_ofText _
  obtain ⟨d, hsegments⟩ := (parse_eq_ok ho).1 h
  obtain ⟨hend, nodes, hspells, hnodes⟩ := spells_segments hsegments
  have hstop : d.offset = byteLength text.toList := by
    obtain ⟨read, hread, hoffset⟩ := hspells.reaches
    rw [hend, List.append_nil] at hread
    rw [hoffset, ← hread]
    exact Nat.zero_add _
  have htiled := hspells.tiled_segments hstart
  rw [hstop] at htiled hnodes
  have hexact := exact_of_parse ho h
  rcases hnodes with rfl | rfl
  · -- One segment is the whole of the text.
    refine ⟨htiled.span_eq, ?_, hexact⟩
    rwa [hspells.segments_of_mem n List.mem_cons_self]
  · exact ⟨rfl, htiled, hexact⟩

/-- Literal text around references, in a list and in quotes of two kinds. -/
theorem parse_lossless_nested :
    ∃ n, parse .full "a$(B.C('x$(D) y', 1));;@(E->'%(F)é', \"; \")" = .ok n ∧
      Lossless "a$(B.C('x$(D) y', 1));;@(E->'%(F)é', \"; \")".toList n := by
  let text := "a$(B.C('x$(D) y', 1));;@(E->'%(F)é', \"; \")"
  have hread : (parse .full text).toOption.isSome = true := by decide +kernel
  cases hparse : parse .full text with
  | error e =>
    rw [hparse] at hread
    cases hread
  | ok n => exact ⟨n, rfl, parse_lossless rfl hparse⟩

end ProjectAnalysis.Expr
