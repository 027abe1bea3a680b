/-
This file says which tree the grammar chooses for a text.

`Derives` puts the choices of a list item together to a whole node: the text in front of the rest is
chosen as a leaf, or it is chosen as the opening of a block whose list is derived in turn. A
derivation leaves no text over. What stands between two nodes is what a list passes over there, and
the list ends where it may end. A derivation holds in front of every beginning of its rest, and the
grammar finds the tree of every derivation.
-/

import CssSyntax.Proofs.Cuts
import CssSyntax.Proofs.Dispatch
import CssSyntax.Proofs.Readings

namespace CssSyntax

open Grammar Pattern

/-! ### Choices in front of less text -/

section

variable {room : Room} {content : Leaf} {header : Header} {text rest kept input : List Char}

theorem EndsList.cut (ending : EndsList rest) (less : kept <+: rest) : EndsList kept := by
  rcases ending with rfl | ⟨more, rfl⟩
  · exact .inl (List.prefix_nil.mp less)
  · rcases List.prefix_cons_iff.mp less with rfl | ⟨others, rfl, -⟩
    · exact .inl rfl
    · exact .inr ⟨others, rfl⟩

theorem Room.Continues.cut (continues : room.Continues input) (filled : kept ≠ [])
    (less : kept <+: input) : room.Continues kept := by
  refine ⟨fun opened => continues.1 (opened.trans less), fun isRules ending => ?_⟩
  rcases ending with nothing | closed
  · exact filled nothing
  · exact continues.2 isRules (.inr (closed.trans less))

theorem AtKeyword.Absent.cut {name : AtKeyword} (other : name ≠ .document)
    (absent : name.Absent input) (less : kept <+: input) : name.Absent kept := by
  cases name with
  | keyframes => exact fading_spaced (fading_vendorKeyword _) less absent
  | media | supports => exact fading_map _ (fading_condition _) less absent
  | customMedia => exact fading_customMedia less absent
  | importRule | charset | namespaceRule => exact fading_map _ (fading_payload _) less absent
  | document => exact absurd rfl other
  | page => exact fading_pageOpening less absent
  | host | fontFace => exact fading_map _ (fading_bare _) less absent

/-- With a brace in front of the cut, this holds of all at-rules. -/
theorem AtKeyword.Absent.cut_behind_brace {name : AtKeyword}
    (absent : name.Absent (text ++ '{' :: rest)) (less : kept <+: rest) :
    name.Absent (text ++ '{' :: kept) := by
  by_cases document : name = .document
  · subst document
    exact fading_documentOpening less absent
  · refine absent.cut document ((List.prefix_append_right_inj text).mpr ?_)
    exact List.cons_prefix_cons.mpr ⟨rfl, less⟩

theorem steady_of_statement {name : AtKeyword} {opening : Pattern Leaf}
    (form : name.form = .statement opening) : Steady opening := by
  cases name <;> cases form
  case customMedia => exact steady_customMedia
  case importRule | charset | namespaceRule => exact steady_map _ (steady_payload _)

theorem steady_of_conditional {name : AtKeyword} {opening : Pattern Header}
    (form : name.form = .conditional opening room) : Steady opening := by
  cases name <;> cases form
  case media | supports => exact steady_map _ (steady_condition _)
  case document => exact steady_documentOpening
  case page => exact steady_pageOpening
  case host | fontFace => exact steady_map _ (steady_bare _)

/-- No statement is tried behind `@document`. -/
theorem not_document_of_earlier {name other : AtKeyword} {opening : Pattern Leaf}
    (form : name.form = .statement opening) (member : other ∈ name.earlier) :
    other ≠ .document := by
  rintro rfl
  cases name <;> cases form <;> exact absurd member (by decide)

theorem Room.TakesLeaf.ne_nil (takes : room.TakesLeaf content text rest) : text ≠ [] :=
  takes.written.ne_nil

theorem Room.TakesLeaf.cut (takes : room.TakesLeaf content text rest) (less : kept <+: rest) :
    room.TakesLeaf content text kept := by
  have shorter : text ++ kept <+: text ++ rest := (List.prefix_append_right_inj text).mpr less
  have filled : text ++ kept ≠ [] := List.append_ne_nil_of_left_ne_nil takes.ne_nil _
  cases takes with
  | comment takes => exact .comment (steady_commentBody less takes)
  | @declaration property former sign mark latter _ value continues named marked valued =>
    have behindName := (List.prefix_append_right_inj latter).mpr less
    have behindMark := (List.prefix_append_right_inj mark).mpr behindName
    refine .declaration (continues.cut filled shorter) (steady_propertyName behindMark named)
      (steady_mark ':' behindName marked) ?_
    exact steady_optional steady_declarationValue fading_declarationValue less valued
  | statement continues form earlier takes =>
    -- a cut can bring out `@document` only, and that is tried behind every statement
    refine .statement (continues.cut filled shorter) form (fun other member => ?_)
      (steady_of_statement form less takes)
    exact (earlier other member).cut (not_document_of_earlier form member) shorter

theorem Room.Opens.cut (opens : room.Opens header text ('{' :: rest)) (less : kept <+: rest) :
    room.Opens header text ('{' :: kept) := by
  have shorter : '{' :: kept <+: '{' :: rest := List.cons_prefix_cons.mpr ⟨rfl, less⟩
  cases opens with
  | conditional form earlier takes =>
    refine .conditional form (fun other member => ?_) (steady_of_conditional form shorter takes)
    exact (earlier other member).cut_behind_brace less
  | @keyframes vendor name former latter _ vendored named =>
    have behindVendor := (List.prefix_append_right_inj latter).mpr shorter
    refine .keyframes (steady_spaced (steady_vendorKeyword _) behindVendor vendored) ?_
    exact steady_spaced (steady_run1 _) shorter named
  | rule absent takes =>
    exact .rule (fun name => (absent name).cut_behind_brace less) (steady_run1 _ shorter takes)
  | keyframe takes => exact .keyframe (steady_nonempty steady_offsets shorter takes)

end

/-! ### Derivations -/

mutual

/-- In front of the rest, the text is chosen as the node at the place in a list of the kind. -/
inductive Derives (source : Option String) :
    Room → Location → List Char → List Char → Node → Prop where
  | leaf {room : Room} {place : Location} {text rest : List Char} {content : Leaf}
      (takes : room.TakesLeaf content text rest) :
      Derives source room place text rest (.leaf content ⟨place, place.after text, source⟩)
  | block {room : Room} {place stop : Location} {opening inside rest : List Char}
      {header : Header} {children : List Node}
      (continues : room.Continues (opening ++ ('{' :: inside ++ '}' :: rest)))
      (opens : room.Opens header opening ('{' :: inside ++ '}' :: rest))
      (body : DerivesAll source header.room isBlank (place.after (opening ++ ['{'])) inside
        ('}' :: rest) children)
      (behind : stop = place.after (opening ++ '{' :: inside ++ ['}'])) :
      Derives source room place (opening ++ '{' :: inside ++ ['}']) rest
        (.block header ⟨place, stop, source⟩ children)

/-- In front of the rest, the text is chosen as the nodes of a list of the kind, of which a part
that is passed over stands first. -/
inductive DerivesAll (source : Option String) :
    Room → (Char → Bool) → Location → List Char → List Char → List Node → Prop where
  | nil {room : Room} {skips : Char → Bool} {place : Location} {gap rest : List Char}
      (skipped : ∀ character ∈ gap, skips character = true) (ending : EndsList rest) :
      DerivesAll source room skips place gap rest []
  | cons {room : Room} {skips : Char → Bool} {place : Location} {gap text tail rest : List Char}
      {node : Node} {nodes : List Node} (skipped : ∀ character ∈ gap, skips character = true)
      (stops : StopsAt skips (text ++ (tail ++ rest)))
      (head : Derives source room (place.after gap) text (tail ++ rest) node)
      (others : DerivesAll source room (room.skipsBehind node.kind) (place.after (gap ++ text))
        tail rest nodes) :
      DerivesAll source room skips place (gap ++ text ++ tail) rest (node :: nodes)

end

variable {source : Option String}

theorem Derives.ne_nil {room : Room} {place : Location} {text rest : List Char} {node : Node}
    (derives : Derives source room place text rest node) : text ≠ [] := by
  cases derives with
  | leaf takes => exact takes.ne_nil
  | block => simp

theorem Derives.span_eq {room : Room} {place : Location} {text rest : List Char} {node : Node}
    (derives : Derives source room place text rest node) :
    node.span = ⟨place, place.after text, source⟩ := by
  cases derives with
  | leaf takes => rfl
  | block continues opens body behind => rw [behind]; rfl

/-- More of what is passed over may stand in front of the first node. -/
theorem DerivesAll.prepend {room : Room} {skips : Char → Bool} {place : Location}
    {gap text rest : List Char} {nodes : List Node}
    (skipped : ∀ character ∈ gap, skips character = true)
    (derives : DerivesAll source room skips (place.after gap) text rest nodes) :
    DerivesAll source room skips place (gap ++ text) rest nodes := by
  cases derives with
  | nil others ending => exact .nil (List.forall_mem_append.mpr ⟨skipped, others⟩) ending
  | @cons _ _ _ lead text tail _ _ _ others stops head later =>
    rw [← List.append_assoc, ← List.append_assoc]
    rw [← Location.after_append] at head later
    rw [← List.append_assoc] at later
    exact .cons (List.forall_mem_append.mpr ⟨skipped, others⟩) stops head later

mutual

/-- A derivation holds in front of every beginning of its rest. -/
theorem Derives.cut {room : Room} {place : Location} {text rest kept : List Char} {node : Node}
    (derives : Derives source room place text rest node) (less : kept <+: rest) :
    Derives source room place text kept node := by
  cases derives with
  | leaf takes => exact .leaf (takes.cut less)
  | @block _ _ _ opening inside _ _ _ continues opens body behind =>
    have closed : '}' :: kept <+: '}' :: rest := List.cons_prefix_cons.mpr ⟨rfl, less⟩
    have behindBrace : inside ++ '}' :: kept <+: inside ++ '}' :: rest :=
      (List.prefix_append_right_inj inside).mpr closed
    have shorter : opening ++ ('{' :: inside ++ '}' :: kept) <+:
        opening ++ ('{' :: inside ++ '}' :: rest) :=
      (List.prefix_append_right_inj opening).mpr (List.cons_prefix_cons.mpr ⟨rfl, behindBrace⟩)
    refine .block (continues.cut ?_ shorter) (opens.cut behindBrace) (body.cut closed) behind
    exact List.append_ne_nil_of_right_ne_nil _ (List.cons_ne_nil _ _)

theorem DerivesAll.cut {room : Room} {skips : Char → Bool} {place : Location}
    {text rest kept : List Char} {nodes : List Node}
    (derives : DerivesAll source room skips place text rest nodes) (less : kept <+: rest) :
    DerivesAll source room skips place text kept nodes := by
  cases derives with
  | nil skipped ending => exact .nil skipped (ending.cut less)
  | @cons _ _ _ gap text tail _ _ _ skipped stops head others =>
    have behind : tail ++ kept <+: tail ++ rest := (List.prefix_append_right_inj tail).mpr less
    have shorter := (List.prefix_append_right_inj text).mpr behind
    exact .cons skipped (stops.cut shorter) (head.cut behind) (others.cut less)

end

/-! ### Every derivation is found -/

theorem Header.kind_ne_declaration (header : Header) : header.kind ≠ .declaration := by
  cases header <;> rintro ⟨⟩

theorem Room.skipsBehind_block (room : Room) (header : Header) :
    room.skipsBehind header.kind = isBlank :=
  if_neg header.kind_ne_declaration

/-- What is passed over ends at a closing brace. -/
theorem Room.skipsBehind_brace (room : Room) (kind : Kind) : room.skipsBehind kind '}' = false := by
  unfold Room.skipsBehind
  split
  · cases room <;> decide
  · decide

/-- Behind a part that is passed over, the list of items reads the trees from the text, wherever no
more text than the bound is left. -/
def FindsTrees (room : Room) (skips : Char → Bool) (trees : List Tree) (text rest : List Char) :
    Prop :=
  ∃ gap body, text = gap ++ body ∧ (∀ character ∈ gap, skips character = true) ∧
    StopsAt skips (body ++ rest) ∧
    ∀ bound, (body ++ rest).length ≤ bound →
      Gives (collect (room.item bound)) (body ++ rest) (AllFound trees) rest

/-- A block is read by the list of its room, whose items may be blocks themselves. -/
theorem FindsTrees.body {room : Room} {bound : Nat} {trees : List Tree} {text rest : List Char}
    (gives : FindsTrees room isBlank trees text ('}' :: rest))
    (less : (text ++ '}' :: rest).length < bound) :
    GivesBody (room.list bound) trees text rest := by
  obtain ⟨gap, body, rfl, blank, stops, reads⟩ := gives
  refine ⟨gap, body, rfl, blank, stops, gives_list stops ?_ reads⟩
  rw [List.append_assoc, List.length_append] at less
  omega

mutual

/-- The parser of a list item finds the tree of a derivation. -/
theorem Derives.gives {room : Room} {place : Location} {text gap rest : List Char} {node : Node}
    {bound : Nat} (derives : Derives source room place text (gap ++ rest) node)
    (skipped : ∀ character ∈ gap, room.skipsBehind node.kind character = true)
    (stops : StopsAt (room.skipsBehind node.kind) rest)
    (fits : (text ++ (gap ++ rest)).length ≤ bound) :
    Gives (room.item bound) (text ++ (gap ++ rest)) (Found node.tree) rest := by
  cases derives with
  | leaf takes => exact gives_leaf takes skipped stops
  | @block _ _ _ opening inside _ header children continues opens body behind =>
    have parts : opening ++ '{' :: inside ++ ['}'] ++ (gap ++ rest) =
        opening ++ ('{' :: inside ++ '}' :: (gap ++ rest)) := by simp
    rw [Node.kind, room.skipsBehind_block] at skipped stops
    have inner := body.findsTrees (by decide)
    rw [parts] at fits ⊢
    refine gives_block continues opens (inner.body ?_) skipped stops
    rw [List.length_append, List.cons_append, List.length_cons] at fits
    omega

theorem DerivesAll.findsTrees {room : Room} {skips : Char → Bool} {place : Location}
    {text rest : List Char} {nodes : List Node}
    (derives : DerivesAll source room skips place text rest nodes) (closes : skips '}' = false) :
    FindsTrees room skips (Node.trees nodes) text rest := by
  cases derives with
  | nil skipped ending =>
    have stops : StopsAt skips rest := by
      rcases ending with rfl | ⟨more, rfl⟩
      · exact trivial
      · exact closes
    refine ⟨text, [], (List.append_nil _).symm, skipped, stops, fun bound _ => ?_⟩
    exact .collect_nil rfl (gives_item_ending ending)
  | @cons _ _ _ gap text _ _ node nodes skipped stops head others =>
    -- the parser of an item also passes over what stands between it and the next one
    obtain ⟨between, body, rfl, apart, ends, later⟩ :=
      others.findsTrees (room.skipsBehind_brace node.kind)
    rw [List.append_assoc] at head stops
    refine ⟨gap, text ++ (between ++ body), List.append_assoc _ _ _, skipped, ?_, ?_⟩
    · rwa [List.append_assoc, List.append_assoc]
    intro bound fits
    rw [List.append_assoc, List.append_assoc] at fits ⊢
    have less : (body ++ rest).length < (text ++ (between ++ (body ++ rest))).length := by
      have filled := List.length_pos_iff.mpr head.ne_nil
      simp only [List.length_append]
      omega
    refine .collect_cons (head.gives apart ends fits) less
      (later bound (Nat.le_of_lt (Nat.lt_of_lt_of_le less fits))) ?_
    intro found others same alike
    rw [AllFound, Node.trees, same, alike]
    rfl

end

/-- At the top level the text is read up to where the list may end. -/
theorem gives_rules_before {trees : List Tree} {text rest : List Char}
    (finds : FindsTrees .rules isBlank trees text rest) :
    Gives rules (text ++ rest) (AllFound trees) rest := by
  obtain ⟨gap, body, rfl, blank, stops, reads⟩ := finds
  rw [List.append_assoc]
  have skips : Pattern.blanks.Takes gap gap (body ++ rest) := takes_run.mpr ⟨rfl, blank, stops⟩
  intro options state ahead
  have left : state.left = (gap ++ (body ++ rest)).length := congrArg List.length ahead
  rw [rules_eq, byLeft, left]
  refine Gives.accept skips (reads _ ?_) options state ahead
  simp only [List.length_append]
  exact Nat.le_add_left _ _

/-- At the top level the whole text is read. -/
theorem gives_rules {trees : List Tree} {text : List Char}
    (finds : FindsTrees .rules isBlank trees text []) : Gives rules text (AllFound trees) [] := by
  have gives := gives_rules_before finds
  rwa [List.append_nil] at gives

end CssSyntax
