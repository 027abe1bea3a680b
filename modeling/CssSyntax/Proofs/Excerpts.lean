/-
This file takes a top-level node out of its surroundings.

As long as a tolerant parse has met no fault it goes the way of a strict one, so the nodes that end
before the first fault are chosen. A choice looks ahead, sometimes far beyond the node, but it holds
in front of every beginning of what is ahead, and in front of nothing as well. So the text in the
range of the node, read alone, has the node and no other. Where the node stood plays no part.
-/

import CssSyntax.Proofs.Gaps

namespace CssSyntax

open Grammar

namespace Grammar

variable {α : Type} {options : Options} {state later last : State} {node : Node}

/-! ### Faults come to light before the end of a node -/

theorem Forward.precedes {parser : Parser α} (forward : Forward α parser) {value : α}
    (run : parser options state = .ok value later) : state.Precedes later := by
  have start := forward options state
  rwa [run] at start

theorem precedes_past {pattern : Pattern α} {found : Match α}
    (present : pattern.read state.cursor.rest = some found) : state.Precedes (state.past found) :=
  .of_quiet ⟨found.taken, (pattern.taken_append_rest present).symm, rfl⟩ rfl List.prefix_rfl

/-- With a node that the parser ends with, all faults since an earlier state are told at its end or
before. -/
def Tells (parser : Parser (Option Node)) : Prop :=
  ∀ options first state node last, State.Precedes first state →
    parser options state = .ok (some node) last →
    ∀ fault ∈ last.faults, fault ∈ first.faults ∨ fault.location ≤ node.span.stop

/-- The span of a node ends where all its faults have been told. -/
theorem told_of_passesOver {first : State} (precedes : first.Precedes state)
    (passed : state.PassesOver isBlank last) :
    ∀ fault ∈ last.faults, fault ∈ first.faults ∨ fault.location ≤ state.cursor.location := by
  rw [passed.faults_eq]
  exact precedes.told

theorem told_of_blockFound {block : Parser (List Node)} {header : Header} {first middle : State}
    (forward : Forward (List Node) block) (precedes : first.Precedes middle)
    (found : BlockFound block header options state middle last node) :
    ∀ fault ∈ last.faults, fault ∈ first.faults ∨ fault.location ≤ node.span.stop := by
  obtain ⟨children, later, inner, passed, rfl⟩ := found
  exact told_of_passesOver (precedes.trans (forward.precedes inner)) passed

theorem tells_comment : Tells comment := by
  intro options first state node last precedes run
  obtain ⟨body, present, passed, rfl⟩ := found_of_comment run
  exact told_of_passesOver (precedes.trans (precedes_past present)) passed

theorem tells_statement (opening : Pattern Leaf) : Tells (statement opening) := by
  intro options first state node last precedes run
  obtain ⟨found, present, passed, rfl⟩ := found_of_statement run
  exact told_of_passesOver (precedes.trans (precedes_past present)) passed

theorem tells_conditional {name : AtKeyword} {opening : Pattern Header}
    {body : Parser (List Node)} (forward : Forward (List Node) body) :
    Tells (conditional name opening body) := by
  intro options first state node last precedes run
  obtain ⟨found, present, block⟩ := found_of_conditional run
  exact told_of_blockFound (closed_forward.atBlock name forward)
    (precedes.trans (precedes_past present)) block

theorem tells_keyframes : Tells keyframes := by
  intro options first state node last precedes run
  obtain ⟨vendor, word, vendored, named, block⟩ := found_of_keyframes run
  have list := closed_forward.collect (closed_forward.orComment closed_forward.keyframe)
  have opened := (precedes_past vendored).trans (precedes_past named)
  exact told_of_blockFound (closed_forward.atBlock .keyframes list) (precedes.trans opened) block

theorem tells_rule : Tells rule := by
  intro options first state node last precedes run
  obtain ⟨text, present, block⟩ := found_of_rule run
  exact told_of_blockFound closed_forward.plainBlock (precedes.trans (precedes_past present)) block

variable {nested : Parser (List Node)}

theorem tells_atRule (forward : Forward (List Node) nested) (name : AtKeyword) :
    Tells (atRule nested name) := by
  cases name with
  | keyframes => exact tells_keyframes
  | media | supports | document | host => exact tells_conditional forward
  | page | fontFace => exact tells_conditional closed_forward.declarations
  | customMedia | importRule | charset | namespaceRule => exact tells_statement _

theorem tells_firstAtRule (forward : Forward (List Node) nested) (names : List AtKeyword) :
    Tells (firstAtRule nested names) := by
  intro options first state node last precedes run
  obtain ⟨-, name, -, later, -, -, found, rfl⟩ := found_of_firstAtRule run
  exact tells_atRule forward name options first state node later precedes found

theorem tells_item (forward : Forward (List Node) nested) : Tells (item nested) := by
  intro options first state node last precedes run
  rcases found_of_item run with comment | ⟨-, -, run⟩
  · exact tells_comment _ _ _ _ _ precedes comment
  rcases found_of_ruleOrAtRule run with found | ⟨later, tried, found⟩
  · exact tells_firstAtRule forward _ _ _ _ _ _ precedes found
  · have list := closed_forward.firstAtRule forward AtKeyword.table
    have passed := (closed_forward.attempt list).precedes tried
    exact tells_rule _ _ _ _ _ (precedes.trans passed) found

/-! ### Nodes in front of the first fault -/

variable {source : Option String} {bound : Nat} {nodes : List Node} {fault : Fault}

/-- The node is chosen somewhere ahead of the state. -/
def Ahead (source : Option String) (state : State) (node : Node) : Prop :=
  ∃ lead text rest, state.cursor.rest = lead ++ text ++ rest ∧ StopsAt isBlank text ∧
    Derives source .rules (state.cursor.location.after lead) text rest node

theorem Ahead.of_took {text : List Char} (took : state.Took text later)
    (ahead : Ahead source later node) : Ahead source state node := by
  obtain ⟨lead, inner, rest, parts, stops, derives⟩ := ahead
  rw [took.place, ← Location.after_append] at derives
  refine ⟨text ++ lead, inner, rest, ?_, stops, derives⟩
  rw [took.rest, parts]
  simp only [List.append_assoc]

theorem Ahead.of_chosen (stops : StopsAt isBlank state.cursor.rest)
    (chosen : Chosen source .rules state last node) : Ahead source state node := by
  obtain ⟨text, gap, took, derives, -⟩ := chosen
  have parts : state.cursor.rest = text ++ (gap ++ last.cursor.rest) := by
    rw [took.rest, List.append_assoc]
  refine ⟨[], text, _, parts, ?_, derives⟩
  rw [parts] at stops
  exact stops.cut (List.prefix_append _ _)

/-- The node ends in front of the first of the faults, if there is one. -/
def EndsEarly (faults : List Fault) (node : Node) : Prop :=
  ∀ fault ∈ faults.head?, node.span.stop < fault.location

theorem not_endsEarly {faults : List Fault} (first : [fault] <+: faults)
    (late : fault.location ≤ node.span.stop) : ¬ EndsEarly faults node := by
  obtain ⟨others, rfl⟩ := first
  intro early
  exact Location.lt_irrefl _ (Location.lt_of_lt_of_le (early fault rfl) late)

/-- Nodes that are read later end later. -/
theorem le_stop_of_betweenAll (between : BetweenAll options state last nodes) :
    ∀ node ∈ nodes, state.cursor.location ≤ node.span.stop := by
  intro node member
  obtain ⟨text, took, reads⟩ := between
  obtain ⟨former, inner, latter, rfl, read⟩ := reads.inside node member
  rw [read.span_eq]
  exact Location.le_trans (Location.le_after _ former) (Location.le_after _ inner)

/-- Where the two parses part inside an item, the node of the tolerant one ends behind the fault. -/
theorem told_of_parted {strictLog tolerantLog : List Event} {strict tolerant : State}
    (forward : Forward (List Node) nested) (clean : tolerant.faults = [])
    (parted : Parted strictLog tolerantLog fault strict later)
    (run : item nested ⟨source, .tolerant⟩ tolerant = .ok (some node) later) :
    fault.location ≤ node.span.stop ∧ fault.location ≤ later.cursor.location := by
  have member : fault ∈ later.faults := parted.first.subset List.mem_cons_self
  have absent : fault ∉ tolerant.faults := clean ▸ List.not_mem_nil
  refine ⟨?_, ?_⟩
  · exact (tells_item forward _ _ _ _ _ (.refl tolerant) run fault member).resolve_left absent
  · exact (((closed_forward.item forward).precedes run).told fault member).resolve_left absent

/-- The strict parse and the tolerant one go through the items of a list side by side, until the
first fault. -/
theorem ahead_of_collect {strictLog tolerantLog : List Event} {strict tolerant : State}
    (alike : Alike strictLog tolerantLog strict tolerant) (fresh : strict.openComment = none)
    (fits : strict.left ≤ bound) (stops : StopsAt isBlank strict.cursor.rest)
    (run : collect (item (rulesBelow bound)) ⟨source, .tolerant⟩ tolerant = .ok nodes last) :
    ∀ node ∈ nodes, EndsEarly last.faults node → Ahead source strict node := by
  have tracks : Tracks strictLog tolerantLog _ (item (rulesBelow bound)) :=
    closed_tracks.item (closed_tracks.rulesBelow bound)
  have decides := closed_decides.item (closed_decides.rulesBelow bound)
  have forward := closed_forward.rulesBelow bound
  fun_induction collect (item (rulesBelow bound)) ⟨source, .tolerant⟩ tolerant
    generalizing strict nodes last with
  | case1 | case2 =>
    cases run
    exact List.forall_mem_nil _
  | case3 | case5 => cases run
  | case4 tolerant node later outcome less nodes' last' rest inductionHypothesis =>
    cases run
    have both := tracks.agree source alike
    rw [outcome] at both
    generalize first : item (rulesBelow bound) ⟨source, .strict⟩ strict = strictOutcome at both
    cases both with
    | @ok _ strictLater _ alike' =>
      have chosen := chosen_item first (lists_room bound) fresh fits
      have shorter := Nat.le_trans (Nat.le_of_lt chosen.left_lt) fits
      have still := decides.fresh fresh first
      have others := inductionHypothesis alike' still shorter chosen.stops rest
      -- both parses have read the item, and the strict one tells how it was chosen
      obtain ⟨text, took⟩ := chosen.took
      refine List.forall_mem_cons.mpr ⟨fun _ => .of_chosen stops chosen, ?_⟩
      exact fun other member early => (others other member early).of_took took
    | parted parted =>
      -- the first fault is told inside the item, so neither it nor a later one ends early
      obtain ⟨inner, passed⟩ := told_of_parted forward alike.tolerantClean parted outcome
      have items := closed_forward.item forward
      have kept := parted.first.trans ((forward_collect items).precedes rest).faults
      have reads := readsNodes_collect items (readsNode_item forward (readsNodes_rulesBelow bound))
      have later := le_stop_of_betweenAll (reads _ _ _ _ rest)
      refine List.forall_mem_cons.mpr ⟨fun early => absurd early (not_endsEarly kept inner), ?_⟩
      intro other member early
      exact absurd early (not_endsEarly kept (Location.le_trans passed (later other member)))
  | case6 tolerant node later outcome more =>
    cases run
    have both := tracks.agree source alike
    rw [outcome] at both
    generalize first : item (rulesBelow bound) ⟨source, .strict⟩ strict = strictOutcome at both
    cases both with
    | @ok _ strictLater _ alike' =>
      have chosen := chosen_item first (lists_room bound) fresh fits
      rw [alike.left_eq, alike'.left_eq] at more
      exact absurd chosen.left_lt more
    | parted parted =>
      obtain ⟨inner, -⟩ := told_of_parted forward alike.tolerantClean parted outcome
      refine List.forall_mem_singleton.mpr fun early => ?_
      exact absurd early (not_endsEarly parted.first inner)

/-- Every node of a tolerant parse that ends in front of the first fault is chosen. -/
theorem ahead_of_rules {css : String}
    (run : rules ⟨source, .tolerant⟩ (begun css ⟨source, .tolerant⟩) = .ok nodes last) :
    ∀ node ∈ nodes, EndsEarly last.faults node →
      Ahead source (begun css ⟨source, .strict⟩) node := by
  rw [rules_eq, byLeft] at run
  obtain ⟨-, ⟨blanks, present, rfl⟩, run⟩ := ok_of_ruleList run
  have skips : Pattern.blanks.read (begun css ⟨source, .strict⟩).cursor.rest = some blanks :=
    present
  have took := State.Took.past skips
  have stops := (Pattern.takes_run.mp (Pattern.takes_of_read skips)).2.2
  have alike : Alike [.started source .strict] [.started source .tolerant]
      ((begun css ⟨source, .strict⟩).past blanks) ((begun css ⟨source, .tolerant⟩).past blanks) :=
    ⟨rfl, rfl, rfl, rfl, [], rfl, rfl, List.forall_mem_nil _⟩
  have ahead := ahead_of_collect alike rfl took.left_le stops run
  exact fun node member early => (ahead node member early).of_took took

end Grammar

/-! ### Texts that are read alone -/

variable {source : Option String} {place : Location} {text rest : List Char} {node : Node}

/-- Alone and in strict mode, the text is read as one top-level node, which is the tree. The span of
the node goes from the beginning of the text to its end. -/
def ReadsAlone (text : List Char) (tree : Tree) : Prop :=
  ∀ source, ∃ sheet node, parseWith (String.ofList text) ⟨source, .strict⟩ = .ok sheet ∧
    sheet.rules = [node] ∧ node.tree = tree ∧ node.span = ⟨.start, .ofPrefix text, source⟩

theorem last_of_statement {name : AtKeyword} {opening : Pattern Leaf} {content : Leaf}
    (form : name.form = .statement opening) (takes : opening.Takes content text rest) :
    ∃ front, text = front ++ [';'] := by
  cases name <;> cases form
  case customMedia =>
    obtain ⟨word, query, -, gap, body, parts, -⟩ := customMediaForm_of_takes takes
    exact ⟨_, parts⟩
  case importRule | charset | namespaceRule =>
    obtain ⟨payload, -, taken⟩ := Pattern.takes_map.mp takes
    obtain ⟨inner, parts, -⟩ := takes_payload.mp taken
    exact ⟨_, parts⟩

/-- A node of a list of rules ends with a slash, a semicolon or a closing brace. -/
theorem last_of_derives (derives : Derives source .rules place text rest node) :
    ∃ front final, text = front ++ [final] ∧ isBlank final = false := by
  cases derives with
  | leaf takes =>
    cases takes with
    | @comment _ body _ _ takes =>
      obtain ⟨parts, -⟩ := takes_commentBody.mp takes
      refine ⟨commentOpener ++ body ++ ['*'], '/', ?_, by decide⟩
      rw [parts, List.append_assoc _ ['*']]
      rfl
    | statement continues form earlier takes =>
      obtain ⟨front, parts⟩ := last_of_statement form takes
      exact ⟨front, ';', parts, by decide⟩
  | block => exact ⟨_, '}', rfl, by decide⟩

theorem eq_nil_of_blank_front {gap : List Char} (blank : AllBlank gap)
    (stops : StopsAt isBlank (gap ++ rest)) : gap = [] := by
  cases gap with
  | nil => rfl
  | cons first others =>
    have unblank : isBlank first = false := stops
    rw [blank first List.mem_cons_self] at unblank
    cases unblank

theorem eq_nil_of_blank_end {former tail front : List Char} {final : Char} (blank : AllBlank tail)
    (parts : former ++ tail = front ++ [final]) (unblank : isBlank final = false) : tail = [] := by
  rcases List.eq_nil_or_concat tail with rfl | ⟨others, last, rfl⟩
  · rfl
  · rw [List.concat_eq_append, ← List.append_assoc] at parts
    obtain ⟨-, same⟩ := List.append_inj' parts rfl
    obtain ⟨rfl, -⟩ := List.cons_eq_cons.mp same
    rw [blank last (by simp)] at unblank
    cases unblank

/-- What stands behind a node and in front of it is not needed to choose it. -/
theorem readsAlone_of_derives (derives : Derives source .rules place text rest node)
    (stops : StopsAt isBlank text) : ReadsAlone text node.tree := by
  intro name
  have alone : Derives source .rules place text [] node := derives.cut List.nil_prefix
  have ending : DerivesAll source .rules (Room.rules.skipsBehind node.kind) (place.after text) [] []
      [] := .nil (List.forall_mem_nil _) (.inl rfl)
  have list : DerivesAll source .rules isBlank place ([] ++ text ++ []) [] [node] := by
    refine .cons (List.forall_mem_nil _) ?_ alone ending
    rwa [List.append_nil, List.append_nil]
  rw [List.nil_append, List.append_nil] at list
  have gives := gives_rules (list.findsTrees (by decide))
  obtain ⟨nodes, last, run, same, finished, -⟩ :=
    gives ⟨name, .strict⟩ (begun (String.ofList text) ⟨name, .strict⟩) String.toList_ofList
  -- the run is known by its trees only, so its spans come from a derivation of its own
  obtain ⟨inner, took, -, derived⟩ := chosen_rules rfl run
  obtain ⟨front, final, parts, unblank⟩ := last_of_derives derives
  have whole : text = inner := by
    have read := took.rest
    rw [finished, List.append_nil] at read
    rw [← read]
    exact String.toList_ofList.symm
  subst whole
  cases derived with
  | nil => cases same
  | @cons _ _ _ gap body tail _ twin nodes blank _ head others =>
    obtain ⟨tree, none⟩ := List.cons_eq_cons.mp same
    cases others with
    | cons => cases none
    | nil trailing =>
      rw [Room.skipsBehind_rules] at trailing
      rw [List.append_assoc] at stops
      obtain rfl := eq_nil_of_blank_front blank stops
      obtain rfl := eq_nil_of_blank_end trailing parts unblank
      refine ⟨.ofRules name [twin] last.faults, twin, ?_, rfl, tree, ?_⟩
      · rw [parseWith_eq, run]
        rfl
      · rw [head.span_eq, List.append_nil, ← Location.after_ofPrefix]
        rfl

/-! ### Stylesheets -/

/-- A tolerant parse always ends with a stylesheet, and each of its top-level nodes that ends in
front of the first fault is read from its own text alone. -/
theorem readsAlone_of_parse (css : String) (source : Option String) :
    ∃ sheet, parseWith css ⟨source, .tolerant⟩ = .ok sheet ∧
      ∀ node ∈ sheet.rules, EndsEarly sheet.faults node →
        (∃ first last, node.span.Covers css.toList first last) ∧
        ∀ first last, node.span.Covers css.toList first last →
          ReadsAlone (between css.toList first last) node.tree := by
  have lenient := closed_lenient.rules source (begun css ⟨source, .tolerant⟩)
  rw [parseWith_eq]
  cases run : rules ⟨source, .tolerant⟩ (begun css ⟨source, .tolerant⟩) with
  | ok nodes last =>
    refine ⟨_, rfl, fun node member early => ?_⟩
    obtain ⟨lead, text, rest, parts, stops, derives⟩ := ahead_of_rules run node member early
    have parts : css.toList = lead ++ text ++ rest := parts
    have derives : Derives source .rules ((Location.ofPrefix []).after lead) text rest node :=
      derives
    rw [Location.after_ofPrefix] at derives
    have covers := covers_of_derives derives parts
    refine ⟨⟨_, _, covers⟩, fun first last others => ?_⟩
    obtain ⟨rfl, rfl⟩ := covers.unique others
    rw [List.nil_append, between_of_parts parts]
    exact readsAlone_of_derives derives stops
  | error halt last =>
    cases halt with
    | noted => exact ⟨_, rfl, List.forall_mem_nil _⟩
    | raised fault => exact absurd run (lenient fault last)

/-- A rule in front of a selector without a block. -/
def brokenOffSheet : Stylesheet :=
  .ofRules none
    [.block (.rule ["a"]) ⟨⟨1, 1⟩, ⟨1, 7⟩, none⟩
      [.leaf (.declaration "b" "c") ⟨⟨1, 3⟩, ⟨1, 6⟩, none⟩]]
    [⟨.missingOpenBrace .block, none, ⟨1, 9⟩⟩]

theorem readsAlone_brokenOffSheet :
    parseWith "a{b:c} d" ⟨none, .tolerant⟩ = .ok brokenOffSheet ∧
      ReadsAlone "a{b:c}".toList (.block (.rule ["a"]) [.leaf (.declaration "b" "c")]) := by
  have read : parseWith "a{b:c} d" ⟨none, .tolerant⟩ = .ok brokenOffSheet := by cbv
  refine ⟨read, ?_⟩
  obtain ⟨sheet, same, alone⟩ := readsAlone_of_parse "a{b:c} d" none
  rw [read] at same
  cases same
  have covers : Span.Covers ⟨⟨1, 1⟩, ⟨1, 7⟩, none⟩ "a{b:c} d".toList 0 6 :=
    ⟨by decide, by decide, by decide, by decide⟩
  have cut : between "a{b:c} d".toList 0 6 = "a{b:c}".toList := by decide
  rw [← cut]
  refine (alone _ List.mem_cons_self ?_).2 0 6 covers
  rintro fault ⟨⟩
  decide

end CssSyntax
