/-
This file shows that the grammar reads back every tree that was written.

A canonical text is taken for the leaf or the opening that it was written for: its own pattern takes
it, and the patterns that are tried earlier find nothing, because the conditions on what can be
written rule that out. So a tree that was written has a derivation, by induction on the tree, and
the grammar finds the tree of every derivation.
-/

import CssSyntax.Proofs.Derivations
import CssSyntax.Proofs.Modes

namespace CssSyntax

namespace Grammar

open Pattern

/-! ### At-rules that are passed by -/

theorem absent_of_vendorKeyword {name : AtKeyword} {input : List Char}
    (vendored : name.takesVendor = true) (absent : (vendorKeyword name).read input = none) :
    name.Absent input := by
  cases name <;> cases vendored
  case keyframes => exact read_bind_of_none absent
  case document => exact read_bind_of_none absent

theorem absent_of_keyword {name : AtKeyword} {input : List Char}
    (bare : name.takesVendor = false) (absent : ¬ name.written <+: input) : name.Absent input := by
  have missing : (keyword name).read input = none := read_exactly_eq_none.mpr absent
  cases name <;> cases bare
  case media | supports | importRule | charset | namespaceRule | host | fontFace =>
    exact read_map_of_none (read_bind_of_none missing)
  case customMedia | page => exact read_bind_of_none missing

theorem absent_of_unclaimed {name : AtKeyword} {word behind : List Char}
    (good : ∀ character ∈ word, isIdentifierChar character = true)
    (stops : StopsAt isIdentifierChar behind) (unclaimed : ¬ name.Claims word) :
    name.Absent ('@' :: (word ++ behind)) := by
  unfold AtKeyword.Claims at unclaimed
  cases vendored : name.takesVendor with
  | true =>
    rw [if_pos vendored] at unclaimed
    have start : (exactly ['@']).Takes ['@'] ['@'] (word ++ behind) := takes_exactly.mpr ⟨rfl, rfl⟩
    refine absent_of_vendorKeyword vendored
      (read_bind_of_takes start (read_bind_of_none (read_sized_of_none ?_)))
    rw [takeWhile_append_of_stopsAt good stops, cutLast?_eq_none unclaimed]
    rfl
  | false =>
    rw [if_neg (Bool.eq_false_iff.mp vendored)] at unclaimed
    refine absent_of_keyword vendored fun start => ?_
    have later := (List.cons_prefix_cons.mp start).2
    exact unclaimed (prefix_of_stopsAt (identifier_of_keyword name) stops later)

theorem absent_of_head {name : AtKeyword} {input : List Char} (absent : ¬ ['@'] <+: input) :
    name.Absent input := by
  cases vendored : name.takesVendor with
  | true =>
    exact absent_of_vendorKeyword vendored (read_bind_of_none (read_exactly_eq_none.mpr absent))
  | false =>
    refine absent_of_keyword vendored ?_
    rintro ⟨rest, rfl⟩
    exact absent ⟨name.text.toList ++ rest, rfl⟩

/-- No at-rule is tried with success on an opening that none of them claims. -/
theorem absent_of_opening {name : AtKeyword} {text rest : List Char} {mark : Char}
    (filled : text ≠ []) (unclaimed : Unclaimed text) (ends : isIdentifierChar mark = false) :
    name.Absent (text ++ mark :: rest) := by
  obtain ⟨first, others, rfl⟩ := List.exists_cons_of_ne_nil filled
  by_cases sign : first = '@'
  · subst sign
    have parts : '@' :: others ++ mark :: rest = '@' :: (others.takeWhile isIdentifierChar ++
        (others.dropWhile isIdentifierChar ++ mark :: rest)) := by
      rw [← List.append_assoc, List.takeWhile_append_dropWhile, List.cons_append]
    have stops : StopsAt isIdentifierChar (others.dropWhile isIdentifierChar ++ mark :: rest) :=
      (stopsAt_dropWhile isIdentifierChar others).append_cons ends
    rw [parts]
    exact absent_of_unclaimed (fun _ member => accepted_of_mem_takeWhile member) stops
      (unclaimed others rfl name)
  · exact absent_of_head (not_prefix_of_head rfl (Ne.symm sign))

theorem unclaimed_keyword (name : AtKeyword) :
    ∀ other ∈ name.earlier, ¬ other.Claims name.text.toList := by
  cases name <;> decide +kernel

/-- The at-rules that are tried earlier pass by a keyword without a vendor. -/
theorem absent_of_earlier {name : AtKeyword} {behind : List Char}
    (stops : StopsAt isIdentifierChar behind) :
    ∀ other ∈ name.earlier, other.Absent (name.written ++ behind) :=
  fun other member =>
    absent_of_unclaimed (identifier_of_keyword name) stops (unclaimed_keyword name other member)

/-! ### Heads of canonical texts -/

/-- At-rules stand in lists of rules alone. -/
theorem eq_rules {room : Room} {name : AtKeyword} (admitted : room.admits (.atRule name) = true) :
    room = .rules := by
  cases room with
  | rules => rfl
  | keyframes | declarations => cases admitted

/-- Offsets begin with a digit, a point or a small letter. -/
theorem offsets_head {words : List String} (writable : (Header.keyframe words).Writable) :
    ∃ first others, listed words = first :: others ∧
      (first.isDigit = true ∨ first = '.' ∨ first.isLower = true) := by
  obtain ⟨word, others, rfl⟩ := List.exists_cons_of_ne_nil writable.1
  obtain ⟨head, tail, parts, start⟩ := isOffset_head (writable.2 word List.mem_cons_self)
  obtain ⟨behind, whole⟩ := joined_eq_append word.toList (others.map String.toList)
  refine ⟨head, tail ++ behind, ?_, start⟩
  rw [listed, List.map_cons, whole, parts, List.cons_append]

theorem ofList_map_toList (words : List String) :
    (words.map String.toList).map String.ofList = words := by
  rw [List.map_map]
  refine (List.map_congr_left fun word _ => ?_).trans (List.map_id words)
  exact String.ofList_toList

theorem skips_mark (room : Room) {mark : Char} (sign : mark = '@' ∨ mark = '/') :
    room.skips mark = false := by
  rcases sign with rfl | rfl <;> cases room <;> decide

theorem property_head {property : List Char} (good : IsProperty property) :
    ∃ first others, property = first :: others ∧ isPropertyChar first = true := by
  obtain ⟨name, bracket, rfl, nonempty, -, allowed, -⟩ := good
  obtain ⟨first, others, rfl⟩ := List.exists_cons_of_ne_nil nonempty
  exact ⟨first, _, rfl, allowed first List.mem_cons_self⟩

/-- A tree that was written begins with a character that is not passed over. -/
theorem written_head {room : Room} {tree : Tree} {text : List Char} (written : tree.Written text)
    (admitted : room.admits tree.kind = true) :
    ∃ first others, text = first :: others ∧ room.skips first = false := by
  cases written with
  | @leaf content writable =>
    cases content with
    | comment body => exact ⟨'/', _, rfl, skips_mark room (.inr rfl)⟩
    | importRule | charset | namespaceRule | customMedia =>
      exact ⟨'@', _, rfl, skips_mark room (.inl rfl)⟩
    | declaration property value =>
      obtain ⟨first, others, parts, good⟩ := property_head writable.1
      refine ⟨first, others ++ ':' :: value.toList ++ [';'], ?_, ?_⟩
      · rw [Leaf.canonical, parts]
        simp
      · have semicolon : first ≠ ';' := by
          rintro rfl
          exact absurd good (by decide)
        have blank := isBlank_of_isPropertyChar good
        cases room with
        | rules | keyframes => exact blank
        | declarations => exact Bool.or_eq_false_iff.mpr ⟨beq_false_of_ne semicolon, blank⟩
  | @block header children inside writable kinds body =>
    cases header with
    | keyframes | media | supports | host | document | page | fontFace =>
      exact ⟨'@', _, rfl, skips_mark room (.inl rfl)⟩
    | rule selectors =>
      obtain ⟨first, others, parts⟩ := List.exists_cons_of_ne_nil writable.1.nonempty
      have unblank := (trimmed_listed writable.1).1 first (by rw [parts]; rfl)
      refine ⟨first, others ++ '{' :: inside ++ ['}'], ?_, ?_⟩
      · rw [Header.canonical, parts]
        simp
      · cases room with
        | rules => exact unblank
        | keyframes | declarations => cases admitted
    | keyframe offsets =>
      obtain ⟨head, tail, parts, start⟩ := offsets_head writable
      refine ⟨head, tail ++ '{' :: inside ++ ['}'], ?_, ?_⟩
      · rw [Header.canonical, parts]
        simp
      · cases room with
        | keyframes => exact isBlank_offset_head start
        | rules | declarations => cases admitted

theorem not_opens_comment {text : List Char} {mark : Char} {behind : List Char}
    (absent : ¬ commentOpener <+: text) (filled : text ≠ []) (other : mark ≠ '*') :
    ¬ commentOpener <+: text ++ mark :: behind := by
  intro start
  obtain ⟨first, others, rfl⟩ := List.exists_cons_of_ne_nil filled
  obtain ⟨same, next⟩ := List.cons_prefix_cons.mp start
  cases others with
  | nil => exact other (List.cons_prefix_cons.mp next).1.symm
  | cons second others =>
    have star := (List.cons_prefix_cons.mp next).1
    refine absent (List.cons_prefix_cons.mpr ⟨same, ?_⟩)
    exact List.cons_prefix_cons.mpr ⟨star, List.nil_prefix⟩

theorem not_endsList_cons {first : Char} {rest : List Char} (other : first ≠ '}') :
    ¬ EndsList (first :: rest) := by
  rintro (absurdity | start)
  · cases absurdity
  · exact other (List.cons_prefix_cons.mp start).1.symm

theorem continues_of_sign (room : Room) (rest : List Char) : room.Continues ('@' :: rest) :=
  ⟨not_prefix_of_head rfl (by decide), fun _ => not_endsList_cons (by decide)⟩

/-! ### Leaves -/

section

variable {room : Room} {rest : List Char}

theorem takesLeaf_statement {name : AtKeyword} {opening : Pattern Leaf} {content : Leaf}
    {behind : List Char} (form : name.form = .statement opening)
    (parts : content.canonical = name.written ++ ' ' :: behind)
    (takes : opening.Takes content content.canonical rest) :
    Room.rules.TakesLeaf content content.canonical rest := by
  have whole : content.canonical ++ rest = name.written ++ ' ' :: (behind ++ rest) := by
    rw [parts, List.append_assoc, List.cons_append]
  refine .statement ?_ form ?_ takes
  · rw [whole]
    exact continues_of_sign _ _
  · rw [whole]
    exact absent_of_earlier (by decide : isIdentifierChar ' ' = false)

theorem takesLeaf_payload {name : AtKeyword} {change : String → Leaf} {value : String}
    (form : name.form = .statement (change <$> payload name))
    (canonical : (change value).canonical = name.written ++ ' ' :: value.toList ++ [';'])
    (fits : IsPayload value) :
    Room.rules.TakesLeaf (change value) (change value).canonical rest := by
  refine takesLeaf_statement form (canonical.trans (List.append_assoc ..)) ?_
  rw [canonical]
  exact takes_map.mpr ⟨value, rfl, takes_payload.mpr (payload_canonical fits)⟩

/-- The semicolon of a declaration is no part of what is taken for it. -/
theorem takesLeaf_declaration {property value : String}
    (writable : (Leaf.declaration property value).Writable) :
    Room.declarations.TakesLeaf (.declaration property value)
      (property.toList ++ [':'] ++ value.toList) (';' :: rest) := by
  obtain ⟨named, comment, plain, trimmed, closed, free⟩ := writable
  obtain ⟨first, others, parts, -⟩ := property_head named
  have filled : property.toList ≠ [] := by rw [parts]; exact List.cons_ne_nil _ _
  have continues : Room.declarations.Continues
      (property.toList ++ [':'] ++ value.toList ++ ';' :: rest) := by
    refine .of_ne_rules ?_ (by decide)
    rw [List.append_assoc, List.append_assoc]
    exact not_opens_comment comment filled (by decide)
  have unblank : StopsAt isBlank (value.toList ++ ';' :: rest) := by
    cases text : value.toList with
    | nil => exact (by decide : isBlank ';' = false)
    | cons first others => exact trimmed.1 first (by rw [text]; rfl)
  have marked : colon.Takes [':'] [':'] (value.toList ++ ';' :: rest) :=
    takes_mark.mpr ⟨rfl, [], rfl, allBlank_nil, unblank⟩
  have valued : ∃ found, (optional declarationValue).Takes found value.toList (';' :: rest) ∧
      found.getD [] = value.toList := by
    by_cases empty : value.toList = []
    · rw [empty]
      exact ⟨none, takes_optional.mpr (.inr ⟨rfl, rfl, read_declarationValue_eq_none _⟩), rfl⟩
    · have takes := takes_declarationValue closed empty rest
      exact ⟨some value.toList, takes_optional.mpr (.inl ⟨_, rfl, takes⟩), rfl⟩
  obtain ⟨found, valued, same⟩ := valued
  have takes := Room.TakesLeaf.declaration continues (takes_propertyName named) marked valued
  rwa [same, uncommented, uncommented, removeComments_of_uncommented plain, trim_of_trimmed trimmed,
    removeComments_of_uncommented free, String.ofList_toList, String.ofList_toList] at takes

/-- A canonical text is taken for its leaf, but for what is passed over behind such a leaf. -/
theorem takesLeaf_canonical {content : Leaf} (writable : content.Writable)
    (admitted : room.admits content.kind = true) :
    ∃ text mark, content.canonical = text ++ mark ∧
      (∀ character ∈ mark, room.skipsBehind content.kind character = true) ∧
      ∀ rest, room.TakesLeaf content text (mark ++ rest) := by
  have whole : content.canonical = content.canonical ++ [] := (List.append_nil _).symm
  cases content with
  | comment body =>
    refine ⟨_, [], whole, List.forall_mem_nil _, fun rest => ?_⟩
    have takes : commentBody.Takes body.toList (Leaf.comment body).canonical rest :=
      takes_commentBody.mpr ⟨rfl, writable⟩
    have leaf : room.TakesLeaf _ _ _ := .comment takes
    rwa [String.ofList_toList] at leaf
  | declaration property value =>
    cases room with
    | rules | keyframes => cases admitted
    | declarations =>
      have parts : (Leaf.declaration property value).canonical =
          property.toList ++ [':'] ++ value.toList ++ [';'] := by
        simp [Leaf.canonical]
      have semicolon : Room.declarations.skips ';' = true := by decide
      refine ⟨_, _, parts, List.forall_mem_singleton.mpr semicolon, fun rest => ?_⟩
      exact takesLeaf_declaration writable
  | importRule | charset | namespaceRule =>
    rw [eq_rules admitted]
    exact ⟨_, [], whole, List.forall_mem_nil _, fun _ => takesLeaf_payload rfl rfl writable⟩
  | customMedia name query =>
    have parts : (Leaf.customMedia name query).canonical =
        AtKeyword.customMedia.written ++ ' ' :: (name.toList ++ ' ' :: query.toList ++ [';']) := by
      simp [Leaf.canonical]
    rw [eq_rules admitted]
    refine ⟨_, [], whole, List.forall_mem_nil _, fun _ => ?_⟩
    exact takesLeaf_statement rfl parts (takes_customMedia writable)

/-! ### Blocks -/

theorem continues_canonical {header : Header} (writable : header.Writable)
    (admitted : room.admits header.kind = true) :
    room.Continues (header.canonical ++ '{' :: rest) := by
  cases header with
  | rule selectors =>
    obtain ⟨listing, comment, brace, -⟩ := writable
    refine ⟨not_opens_comment comment listing.nonempty (by decide), fun _ => ?_⟩
    obtain ⟨first, others, parts⟩ := List.exists_cons_of_ne_nil listing.nonempty
    rw [parts] at brace
    rw [Header.canonical, parts]
    refine not_endsList_cons ?_
    rintro rfl
    exact brace ⟨others, rfl⟩
  | keyframe offsets =>
    obtain ⟨first, others, parts, start⟩ := offsets_head writable
    have other : '/' ≠ first := by
      rintro rfl
      exact absurd start (by decide)
    rw [Header.canonical, parts]
    cases room with
    | keyframes => exact .of_ne_rules (not_prefix_of_head rfl other) (by decide)
    | rules | declarations => cases admitted
  | keyframes | media | supports | host | document | page | fontFace =>
    exact continues_of_sign _ _

/-- The opening of an at-rule that stands behind a keyword without a vendor. -/
theorem opens_keyword {name : AtKeyword} {opening : Pattern Header} {inner : Room}
    {header : Header} {behind : List Char} (form : name.form = .conditional opening inner)
    (parts : header.canonical = name.written ++ behind)
    (ends : StopsAt isIdentifierChar (behind ++ '{' :: rest))
    (takes : opening.Takes header header.canonical ('{' :: rest)) :
    Room.rules.Opens header header.canonical ('{' :: rest) := by
  refine .conditional form ?_ takes
  rw [parts, List.append_assoc]
  exact absent_of_earlier ends

theorem opens_condition {name : AtKeyword} {change : String → Header} {condition : String}
    {inner : Room} (form : name.form = .conditional (change <$> Grammar.condition name) inner)
    (canonical : (change condition).canonical = name.written ++ ' ' :: condition.toList)
    (fits : IsCondition condition) :
    Room.rules.Opens (change condition) (change condition).canonical ('{' :: rest) := by
  refine opens_keyword form canonical (by decide : isIdentifierChar ' ' = false) ?_
  rw [canonical]
  refine takes_map.mpr ⟨condition, rfl, takes_condition.mpr ⟨condition_canonical fits, ?_⟩⟩
  exact (by decide : ('{' != '{') = false)

theorem opens_bare {name : AtKeyword} {header : Header} {inner : Room}
    (form : name.form = .conditional ((fun _ => header) <$> (keyword name).spaced) inner)
    (canonical : header.canonical = name.written) :
    Room.rules.Opens header header.canonical ('{' :: rest) := by
  have parts : header.canonical = name.written ++ [] := canonical.trans (List.append_nil _).symm
  refine opens_keyword form parts (by decide : isIdentifierChar '{' = false) ?_
  refine takes_map.mpr ⟨name.written, rfl, takes_bare.mpr ⟨rfl, ⟨[], parts, allBlank_nil⟩, ?_⟩⟩
  exact (by decide : isBlank '{' = false)

theorem opens_keyframes {vendor : Option String} {name : String}
    (writable : (Header.keyframes vendor name).Writable) :
    Room.rules.Opens (.keyframes vendor name) (Header.keyframes vendor name).canonical
      ('{' :: rest) := by
  obtain ⟨good, present, identifies⟩ := writable
  have behind : StopsAt isBlank (name.toList ++ '{' :: rest) := by
    obtain ⟨first, others, parts⟩ := List.exists_cons_of_ne_nil present
    rw [parts]
    exact isBlank_of_isIdentifierChar (identifies first (by rw [parts]; exact List.mem_cons_self))
  have vendored : (vendorKeyword .keyframes).spaced.Takes vendor
      (AtKeyword.keyframes.vendored vendor ++ [' ']) (name.toList ++ '{' :: rest) := by
    have space : AllBlank [' '] := List.forall_mem_singleton.mpr (by decide)
    refine takes_spaced.mpr ⟨_, [' '], rfl, ?_, space, behind⟩
    exact takes_vendorKeyword good (by decide : isIdentifierChar ' ' = false)
  have brace : isIdentifierChar '{' = false ∧ isBlank '{' = false := by decide
  have named : identifier.spaced.Takes name.toList name.toList ('{' :: rest) := by
    refine takes_spaced.mpr ⟨name.toList, [], (List.append_nil _).symm, ?_, allBlank_nil, brace.2⟩
    exact takes_run1.mpr ⟨rfl, present, identifies, brace.1⟩
  have opens := Room.Opens.keyframes vendored named
  rwa [String.ofList_toList, List.append_assoc] at opens

theorem opens_document {vendor : Option String} {address : String}
    (writable : (Header.document vendor address).Writable) :
    Room.rules.Opens (.document vendor address) (Header.document vendor address).canonical
      ('{' :: rest) := by
  obtain ⟨good, fits, unclaimed⟩ := writable
  have parts : (Header.document vendor address).canonical ++ '{' :: rest =
      '@' :: ((vendor.getD "").toList ++ AtKeyword.document.text.toList ++
        ' ' :: (address.toList ++ '{' :: rest)) := by
    simp [Header.canonical, AtKeyword.vendored]
  have form : AtKeyword.document.form = .conditional documentOpening .rules := rfl
  refine .conditional form ?_ (takes_documentOpening good fits)
  rw [parts]
  exact fun other member => absent_of_unclaimed (identifier_of_vendor good)
    (by decide : isIdentifierChar ' ' = false) (unclaimed other member)

theorem opens_rule {selectors : List String} (writable : (Header.rule selectors).Writable) :
    Room.rules.Opens (.rule selectors) (Header.rule selectors).canonical ('{' :: rest) := by
  obtain ⟨listing, -, -, unclaimed⟩ := writable
  have absent : ∀ name : AtKeyword, name.Absent (listed selectors ++ '{' :: rest) := fun name =>
    absent_of_opening listing.nonempty unclaimed (by decide : isIdentifierChar '{' = false)
  have opens := Room.Opens.rule absent (takes_selectors listing rest)
  rwa [splitSelectors_listed listing] at opens

theorem opens_keyframe {words : List String} (writable : (Header.keyframe words).Writable) :
    Room.keyframes.Opens (.keyframe words) (Header.keyframe words).canonical ('{' :: rest) := by
  have offset : ∀ value ∈ words.map String.toList, IsOffset value := by
    intro value member
    obtain ⟨word, inside, rfl⟩ := List.mem_map.mp member
    exact writable.2 word inside
  have filled : listed words ≠ [] := by
    obtain ⟨first, others, parts, -⟩ := offsets_head writable
    rw [parts]
    exact List.cons_ne_nil _ _
  have opens := Room.Opens.keyframe (takes_nonempty.mpr ⟨takes_offsets offset rest, filled⟩)
  rwa [ofList_map_toList] at opens

/-- The text of a header opens a block with that header. -/
theorem opens_canonical {header : Header} (writable : header.Writable)
    (admitted : room.admits header.kind = true) :
    room.Opens header header.canonical ('{' :: rest) := by
  cases header with
  | rule selectors =>
    cases room with
    | rules => exact opens_rule writable
    | keyframes | declarations => cases admitted
  | keyframe offsets =>
    cases room with
    | keyframes => exact opens_keyframe writable
    | rules | declarations => cases admitted
  | keyframes vendor name =>
    rw [eq_rules admitted]
    exact opens_keyframes writable
  | media condition | supports condition =>
    rw [eq_rules admitted]
    exact opens_condition rfl rfl writable
  | host | fontFace =>
    rw [eq_rules admitted]
    exact opens_bare rfl rfl
  | document vendor address =>
    rw [eq_rules admitted]
    exact opens_document writable
  | page selectors =>
    rw [eq_rules admitted]
    exact opens_keyword rfl rfl (by decide : isIdentifierChar ' ' = false)
      (takes_pageOpening writable)

end

/-! ### Trees in their lists -/

theorem skips_of_isBlank (room : Room) {character : Char} (blank : isBlank character = true) :
    room.skips character = true := by
  cases room with
  | rules | keyframes => exact blank
  | declarations => exact Bool.or_eq_true_iff.mpr (.inr blank)

theorem skipsBehind_of_isBlank (room : Room) (kind : Kind) (character : Char)
    (blank : isBlank character = true) : room.skipsBehind kind character = true := by
  unfold Room.skipsBehind
  split
  · exact skips_of_isBlank room blank
  · exact blank

theorem skips_of_skipsBehind {room : Room} {kind : Kind} (character : Char)
    (skipped : room.skipsBehind kind character = true) : room.skips character = true := by
  unfold Room.skipsBehind at skipped
  split at skipped
  · exact skipped
  · exact skips_of_isBlank room skipped

variable {source : Option String}

mutual

/-- A canonical text is chosen as its tree, but for what is passed over behind such a node. -/
theorem derives_tree {room : Room} {tree : Tree} {text : List Char} (written : tree.Written text)
    (admitted : room.admits tree.kind = true) (place : Location) (rest : List Char) :
    ∃ body mark node, text = body ++ mark ∧
      (∀ character ∈ mark, room.skipsBehind node.kind character = true) ∧ node.tree = tree ∧
      Derives source room place body (mark ++ rest) node := by
  cases written with
  | @leaf content writable =>
    obtain ⟨body, mark, parts, skipped, takes⟩ := takesLeaf_canonical writable admitted
    exact ⟨body, mark, .leaf content _, parts, skipped, rfl, .leaf (takes rest)⟩
  | @block header children inside writable kinds body =>
    obtain ⟨nodes, same, derives⟩ := derives_trees body kinds (.inr ⟨rest, rfl⟩)
      (List.forall_mem_nil _) (fun _ => id) (fun _ => skips_of_isBlank header.room)
      (place.after (header.canonical ++ ['{']))
    have continues : room.Continues (header.canonical ++ ('{' :: inside ++ '}' :: rest)) :=
      continues_canonical writable admitted
    refine ⟨_, [], _, (List.append_nil _).symm, List.forall_mem_nil _, ?_,
      .block continues (opens_canonical writable admitted) derives rfl⟩
    rw [Node.tree, same]

/-- Canonical texts in a list are chosen as their trees, behind what is passed over. -/
theorem derives_trees {room : Room} {skips : Char → Bool} {trees : List Tree}
    {lead text rest : List Char} (written : Tree.AllWritten trees text)
    (admitted : ∀ tree ∈ trees, room.admits tree.kind = true) (ending : EndsList rest)
    (skipped : ∀ character ∈ lead, skips character = true)
    (blanks : ∀ character, isBlank character = true → skips character = true)
    (within : ∀ character, skips character = true → room.skips character = true)
    (place : Location) :
    ∃ nodes, Node.trees nodes = trees ∧
      DerivesAll source room skips place (lead ++ text) rest nodes := by
  cases written with
  | nil blank =>
    refine ⟨[], rfl, .nil (List.forall_mem_append.mpr ⟨skipped, ?_⟩) ending⟩
    exact fun character member => blanks character (blank character member)
  | @cons tree trees gap text tail blank head others =>
    have kind := admitted tree List.mem_cons_self
    obtain ⟨first, behind, parts, kept⟩ := written_head head kind
    obtain ⟨body, mark, node, rfl, marked, same, derives⟩ :=
      derives_tree head kind (place.after (lead ++ gap)) (tail ++ rest)
    obtain ⟨nodes, alike, later⟩ := derives_trees others
      (fun other member => admitted other (List.mem_cons_of_mem _ member)) ending marked
      (skipsBehind_of_isBlank room node.kind) skips_of_skipsBehind
      (place.after (lead ++ gap ++ body))
    have stops : StopsAt skips (body ++ (mark ++ tail ++ rest)) := by
      obtain ⟨start, inner, rfl⟩ := List.exists_cons_of_ne_nil derives.ne_nil
      obtain ⟨rfl, -⟩ := List.cons_eq_cons.mp parts
      exact Bool.eq_false_iff.mpr fun passed => Bool.eq_false_iff.mp kept (within _ passed)
    have whole : lead ++ (gap ++ (body ++ mark) ++ tail) =
        lead ++ gap ++ body ++ (mark ++ tail) := by
      simp only [List.append_assoc]
    rw [← List.append_assoc] at derives
    rw [whole]
    refine ⟨node :: nodes, by rw [Node.trees, same, alike], .cons ?_ stops derives later⟩
    refine List.forall_mem_append.mpr ⟨skipped, fun character member => ?_⟩
    exact blanks character (blank character member)

end

end Grammar

/-! ### Stylesheets -/

open Grammar

/-- Whatever trees the grammar has are read back from the text they were written as, in either mode
and without a fault. -/
theorem parse_of_written (css : String) (options : Options) {trees : List Tree}
    (written : Tree.AllWritten trees css.toList)
    (admitted : ∀ tree ∈ trees, Room.rules.admits tree.kind = true) :
    ∃ sheet, parseWith css options = .ok sheet ∧ sheet.faults = [] ∧
      sheet.source = options.source ∧ Node.trees sheet.rules = trees := by
  have gives : Gives rules css.toList (AllFound trees) [] := by
    have derived : ∃ nodes, Node.trees nodes = trees ∧
        DerivesAll options.source .rules isBlank .start css.toList [] nodes :=
      derives_trees written admitted (.inl rfl) (List.forall_mem_nil _) (fun _ => id)
        (fun _ => id) .start
    obtain ⟨nodes, same, derives⟩ := derived
    rw [← same]
    exact gives_rules (derives.findsTrees (by decide))
  obtain ⟨nodes, last, run, same, -, clean⟩ := gives options (begun css options) rfl
  refine ⟨.ofRules options.source nodes last.faults, ?_, clean, rfl, same⟩
  rw [parseWith_eq, run]
  rfl

/-- A rule in a conditional block, behind a comment. -/
def writtenTrees : List Tree :=
  [.leaf (.comment "a"),
    .block (.media "b") [.block (.rule ["c", "d"]) [.leaf (.declaration "e" "f")]]]

theorem allWritten_writtenTrees :
    Tree.AllWritten writtenTrees "/*a*/\n@media b{ c,d{e:f;} }".toList := by
  have trimmed : ∀ {letter : Char}, isBlank letter = false → Trimmed [letter] :=
    fun unblank => trimmed_of_unblank (List.forall_mem_singleton.mpr unblank)
  have commented : (Leaf.comment "a").Writable :=
    (by decide +kernel : ¬ commentCloser <:+: "a".toList)
  have conditioned : (Header.media "b").Writable := ⟨trimmed (by decide), by decide⟩
  have selector : ∀ word ∈ ["c", "d"], IsSelector word.toList := by
    refine List.forall_mem_cons.mpr ⟨?_, List.forall_mem_singleton.mpr ?_⟩
    · exact ⟨trimmed (by decide), .plain (by decide) .nil, by decide, by decide, by decide⟩
    · exact ⟨trimmed (by decide), .plain (by decide) .nil, by decide, by decide, by decide⟩
  have unclaimed : Unclaimed (listed ["c", "d"]) := by rintro word ⟨⟩
  have selected : (Header.rule ["c", "d"]).Writable :=
    ⟨⟨selector, uncommented_of_notMem (by decide), by decide⟩, by decide, by decide, unclaimed⟩
  have property : IsProperty ['e'] :=
    ⟨['e'], [], rfl, by decide, by decide, List.forall_mem_singleton.mpr (by decide), .inl rfl⟩
  have declared : (Leaf.declaration "e" "f").Writable :=
    ⟨property, by decide, uncommented_of_notMem (by decide), trimmed (by decide),
      .plain (by decide) .nil, uncommented_of_notMem (by decide)⟩
  have space : AllBlank [' '] := List.forall_mem_singleton.mpr (by decide)
  have line : AllBlank ['\n'] := List.forall_mem_singleton.mpr (by decide)
  have declarations := Tree.AllWritten.cons allBlank_nil (.leaf declared) (.nil allBlank_nil)
  have rules := Tree.AllWritten.cons space (.block selected (by decide) declarations) (.nil space)
  exact .cons allBlank_nil (.leaf commented)
    (.cons line (.block conditioned (by decide) rules) (.nil allBlank_nil))

theorem parse_of_written_writtenTrees :
    Tree.AllWritten writtenTrees "/*a*/\n@media b{ c,d{e:f;} }".toList ∧
      (∀ tree ∈ writtenTrees, Room.rules.admits tree.kind = true) ∧
      ∃ sheet, parseWith "/*a*/\n@media b{ c,d{e:f;} }" {} = .ok sheet ∧ sheet.faults = [] ∧
        sheet.source = none ∧ Node.trees sheet.rules = writtenTrees := by
  have admitted : ∀ tree ∈ writtenTrees, Room.rules.admits tree.kind = true := by decide
  exact ⟨allWritten_writtenTrees, admitted,
    parse_of_written _ {} allWritten_writtenTrees admitted⟩

end CssSyntax
