/-
This file says, for every way to build a pattern, which texts the pattern takes.

A pattern is a function from the text ahead, but what a grammar asks of it is a relation: the
pattern takes this text, in front of that rest, and finds this value. The rest belongs to the
relation because many patterns stop at what comes next. Each lemma below is an equivalence, so the
same lemma serves to find out what was taken and to show that a text will be taken.
-/

import CssSyntax.Pattern

namespace CssSyntax

/-! ### Where a run of characters stops -/

/-- The text is empty or begins with a character that is not accepted. -/
def StopsAt (accepted : Char → Bool) : List Char → Prop
  | [] => True
  | first :: _ => accepted first = false

/-- The text consists of blanks. -/
def AllBlank (text : List Char) : Prop := ∀ character ∈ text, isBlank character = true

theorem allBlank_nil : AllBlank [] := List.forall_mem_nil _

theorem not_stopsAt_cons {accepted : Char → Bool} {first : Char} {rest : List Char}
    (good : accepted first = true) : ¬ StopsAt accepted (first :: rest) := by
  rw [StopsAt, good]
  decide

theorem stopsAt_dropWhile (accepted : Char → Bool) (text : List Char) :
    StopsAt accepted (text.dropWhile accepted) := by
  induction text with
  | nil => exact trivial
  | cons first rest inductionHypothesis =>
    by_cases good : accepted first = true
    · rw [List.dropWhile_cons_of_pos good]
      exact inductionHypothesis
    · rw [List.dropWhile_cons_of_neg good]
      exact Bool.eq_false_iff.mpr good

theorem StopsAt.append_cons {accepted : Char → Bool} {text rest : List Char} {mark : Char}
    (stops : StopsAt accepted text) (other : accepted mark = false) :
    StopsAt accepted (text ++ mark :: rest) := by
  cases text with
  | nil => exact other
  | cons first text => exact stops

theorem accepted_of_mem_takeWhile {accepted : Char → Bool} {text : List Char} {character : Char}
    (member : character ∈ text.takeWhile accepted) : accepted character = true :=
  List.all_eq_true.mp List.all_takeWhile character member

theorem dropWhile_of_stopsAt {accepted : Char → Bool} {text : List Char}
    (stops : StopsAt accepted text) : text.dropWhile accepted = text := by
  cases text with
  | nil => rfl
  | cons first rest => rw [List.dropWhile_cons_of_neg (Bool.eq_false_iff.mp stops)]

theorem takeWhile_of_stopsAt {accepted : Char → Bool} {text : List Char}
    (stops : StopsAt accepted text) : text.takeWhile accepted = [] := by
  cases text with
  | nil => rfl
  | cons first rest => rw [List.takeWhile_cons_of_neg (Bool.eq_false_iff.mp stops)]

theorem takeWhile_append_of_stopsAt {accepted : Char → Bool} {text rest : List Char}
    (good : ∀ character ∈ text, accepted character = true) (stops : StopsAt accepted rest) :
    (text ++ rest).takeWhile accepted = text := by
  rw [List.takeWhile_append_of_pos good, takeWhile_of_stopsAt stops, List.append_nil]

theorem dropWhile_append_of_stopsAt {accepted : Char → Bool} {text rest : List Char}
    (good : ∀ character ∈ text, accepted character = true) (stops : StopsAt accepted rest) :
    (text ++ rest).dropWhile accepted = rest := by
  rw [List.dropWhile_append_of_pos good, dropWhile_of_stopsAt stops]

/-- What is passed over is all that can be. -/
theorem gap_unique {skips : Char → Bool} {gap lead rest left : List Char}
    (skipped : ∀ character ∈ gap, skips character = true)
    (passed : ∀ character ∈ lead, skips character = true) (stops : StopsAt skips rest)
    (ends : StopsAt skips left) (same : gap ++ rest = lead ++ left) : gap = lead ∧ rest = left := by
  have first := takeWhile_append_of_stopsAt skipped stops
  have second := takeWhile_append_of_stopsAt passed ends
  rw [same, second] at first
  subst first
  exact ⟨rfl, List.append_cancel_left same⟩

/-- A text of accepted characters does not reach behind the run it begins in. -/
theorem prefix_of_stopsAt {accepted : Char → Bool} {former word rest : List Char}
    (good : ∀ character ∈ former, accepted character = true) (stops : StopsAt accepted rest)
    (start : former <+: word ++ rest) : former <+: word := by
  induction former generalizing word with
  | nil => exact List.nil_prefix
  | cons first former inductionHypothesis =>
    obtain ⟨goodFirst, goodRest⟩ := List.forall_mem_cons.mp good
    cases word with
    | nil =>
      obtain ⟨tail, rfl⟩ := start
      exact absurd stops (not_stopsAt_cons goodFirst)
    | cons head word =>
      obtain ⟨same, later⟩ := List.cons_prefix_cons.mp start
      exact List.cons_prefix_cons.mpr ⟨same, inductionHypothesis goodRest later⟩

/-! ### Where a word occurs first -/

theorem isPrefixOf?_append (word rest : List Char) :
    word.isPrefixOf? (word ++ rest) = some rest := by
  induction word with
  | nil => rfl
  | cons first word inductionHypothesis =>
    show (if first == first then word.isPrefixOf? (word ++ rest) else none) = some rest
    rw [if_pos (beq_self_eq_true first), inductionHypothesis]

theorem isPrefixOf?_eq_none_iff {word text : List Char} :
    word.isPrefixOf? text = none ↔ ¬ word <+: text := by
  constructor
  · rintro absent ⟨rest, rfl⟩
    rw [isPrefixOf?_append] at absent
    cases absent
  · intro never
    cases present : word.isPrefixOf? text with
    | none => rfl
    | some rest => exact absurd ⟨rest, (eq_append_of_isPrefixOf? present).symm⟩ never

/-- In the text made of `before`, the word and `after`, the word does not begin any earlier. -/
def FirstCut (word before after : List Char) : Prop :=
  ∀ former latter, before = former ++ latter → latter ≠ [] → ¬ word <+: latter ++ (word ++ after)

theorem firstCut_cons {word before after : List Char} {first : Char} :
    FirstCut word (first :: before) after ↔
      ¬ word <+: first :: before ++ (word ++ after) ∧ FirstCut word before after := by
  constructor
  · intro cut
    refine ⟨cut [] (first :: before) rfl (List.cons_ne_nil _ _), ?_⟩
    rintro former latter rfl nonempty
    exact cut (first :: former) latter rfl nonempty
  · rintro ⟨here, later⟩ former latter parts nonempty
    cases former with
    | nil =>
      rw [List.nil_append] at parts
      rw [← parts]
      exact here
    | cons head former =>
      obtain ⟨rfl, rfl⟩ := List.cons.inj parts
      exact later former latter rfl nonempty

theorem cut?_of_ahead {word text rest : List Char} (present : word.isPrefixOf? text = some rest) :
    cut? word text = some ([], rest) := by
  unfold cut?
  rw [present]

theorem cut?_cons_of_absent {word text : List Char} {first : Char}
    (absent : word.isPrefixOf? (first :: text) = none) :
    cut? word (first :: text) = (cut? word text).map fun sides => (first :: sides.1, sides.2) := by
  rw [cut?, absent]

theorem firstCut_nil {word after : List Char} : FirstCut word [] after :=
  fun _ _ parts nonempty => absurd (List.append_eq_nil_iff.mp parts.symm).2 nonempty

theorem eq_nil_of_firstCut {word before after : List Char} (earliest : FirstCut word before after)
    (ahead : word <+: before ++ word ++ after) : before = [] := by
  cases before with
  | nil => rfl
  | cons head before =>
    rw [List.append_assoc] at ahead
    exact absurd ahead (firstCut_cons.mp earliest).1

/-- A word that is ahead is cut off where it stands. -/
theorem cut?_append_eq_some_iff {word rest before after : List Char} :
    cut? word (word ++ rest) = some (before, after) ↔
      word ++ rest = before ++ word ++ after ∧ FirstCut word before after := by
  rw [cut?_of_ahead (isPrefixOf?_append word rest), Option.some.injEq, Prod.mk.injEq]
  constructor
  · rintro ⟨rfl, rfl⟩
    exact ⟨rfl, firstCut_nil⟩
  · rintro ⟨parts, earliest⟩
    have ahead : word <+: before ++ word ++ after := parts ▸ List.prefix_append word rest
    obtain rfl := eq_nil_of_firstCut earliest ahead
    exact ⟨rfl, List.append_cancel_left parts⟩

/-- Cutting finds the first occurrence, and finds it whenever there is one. -/
theorem cut?_eq_some_iff {word text before after : List Char} :
    cut? word text = some (before, after) ↔
      text = before ++ word ++ after ∧ FirstCut word before after := by
  induction text generalizing before with
  | nil =>
    cases word with
    | nil => exact cut?_append_eq_some_iff
    | cons first word =>
      constructor
      · rintro ⟨⟩
      · rintro ⟨parts, -⟩
        simp at parts
  | cons first text inductionHypothesis =>
    cases present : word.isPrefixOf? (first :: text) with
    | some rest =>
      rw [eq_append_of_isPrefixOf? present]
      exact cut?_append_eq_some_iff
    | none =>
      have never := isPrefixOf?_eq_none_iff.mp present
      rw [cut?_cons_of_absent present, Option.map_eq_some_iff]
      constructor
      · rintro ⟨⟨before', after'⟩, later, same⟩
        obtain ⟨rfl, rfl⟩ := Prod.mk.inj same
        obtain ⟨rfl, earliest⟩ := inductionHypothesis.mp later
        refine ⟨rfl, firstCut_cons.mpr ⟨?_, earliest⟩⟩
        rw [List.cons_append, ← List.append_assoc]
        exact never
      · rintro ⟨parts, earliest⟩
        cases before with
        | nil =>
          rw [parts] at never
          exact absurd (List.prefix_append _ _) never
        | cons head before =>
          obtain ⟨rfl, rfl⟩ := List.cons.inj parts
          have later := inductionHypothesis.mpr ⟨rfl, (firstCut_cons.mp earliest).2⟩
          exact ⟨_, later, rfl⟩

theorem cut?_eq_none_iff {word text : List Char} : cut? word text = none ↔ ¬ word <:+: text := by
  induction text with
  | nil =>
    rw [List.infix_nil, ← List.prefix_nil, ← isPrefixOf?_eq_none_iff]
    unfold cut?
    cases word.isPrefixOf? [] <;> simp
  | cons first text inductionHypothesis =>
    rw [List.infix_cons_iff, not_or, ← inductionHypothesis, ← isPrefixOf?_eq_none_iff]
    cases present : word.isPrefixOf? (first :: text) with
    | none => simp [cut?_cons_of_absent present]
    | some rest => simp [cut?_of_ahead present]

/-- A word of two different characters cannot begin in the last character before it. -/
theorem firstCut_pair_iff {first second : Char} (differ : first ≠ second)
    {before after : List Char} :
    FirstCut [first, second] before after ↔ ¬ [first, second] <:+: before := by
  constructor
  · rintro earliest ⟨former, latter, parts⟩
    refine earliest former ([first, second] ++ latter) ?_ (List.cons_ne_nil _ _) ?_
    · rw [← parts, List.append_assoc]
    · rw [List.append_assoc]
      exact List.prefix_append _ _
  · rintro never former latter rfl nonempty start
    obtain ⟨head, tail, rfl⟩ := List.exists_cons_of_ne_nil nonempty
    obtain ⟨rfl, later⟩ := List.cons_prefix_cons.mp start
    cases tail with
    | nil => exact differ (List.cons_prefix_cons.mp later).1.symm
    | cons next latter =>
      obtain ⟨rfl, -⟩ := List.cons_prefix_cons.mp later
      exact never ⟨former, latter, by rw [List.append_assoc]; rfl⟩

theorem firstCut_singleton_iff {character : Char} {before after : List Char} :
    FirstCut [character] before after ↔ character ∉ before := by
  constructor
  · intro earliest member
    obtain ⟨former, latter, parts⟩ := List.append_of_mem member
    refine earliest former (character :: latter) parts (List.cons_ne_nil _ _) ?_
    exact ⟨latter ++ ([character] ++ after), rfl⟩
  · rintro never former latter rfl nonempty start
    cases latter with
    | nil => exact nonempty rfl
    | cons head latter =>
      obtain ⟨rfl, -⟩ := List.cons_prefix_cons.mp start
      exact never (List.mem_append_right former List.mem_cons_self)

namespace Pattern

variable {α β : Type}

/-! ### Taking a text -/

/-- In front of the rest, the pattern takes the text and finds the value. -/
def Takes (pattern : Pattern α) (value : α) (text rest : List Char) : Prop :=
  pattern.read (text ++ rest) = some ⟨value, text, rest⟩

theorem takes_of_read {pattern : Pattern α} {input : List Char} {found : Match α}
    (present : pattern.read input = some found) :
    pattern.Takes found.value found.taken found.rest := by
  rw [Takes, pattern.taken_append_rest present, present]

theorem read_eq_none_iff {pattern : Pattern α} {input : List Char} :
    pattern.read input = none ↔
      ∀ value text rest, input = text ++ rest → ¬ pattern.Takes value text rest := by
  constructor
  · rintro absent value text rest rfl takes
    rw [Takes, absent] at takes
    cases takes
  · intro never
    cases present : pattern.read input with
    | none => rfl
    | some found =>
      have parts := pattern.taken_append_rest present
      exact absurd (takes_of_read present) (never _ _ _ parts.symm)

/-! ### Composition -/

theorem takes_pure {value found : α} {text rest : List Char} :
    (pure value : Pattern α).Takes found text rest ↔ found = value ∧ text = [] := by
  show some (⟨value, [], text ++ rest⟩ : Match α) = some ⟨found, text, rest⟩ ↔ _
  rw [Option.some.injEq, Match.mk.injEq]
  constructor
  · rintro ⟨rfl, rfl, -⟩
    exact ⟨rfl, rfl⟩
  · rintro ⟨rfl, rfl⟩
    exact ⟨rfl, rfl, rfl⟩

theorem takes_bind {first : Pattern α} {second : α → Pattern β} {value : β}
    {text rest : List Char} :
    (first >>= second).Takes value text rest ↔
      ∃ found former latter, text = former ++ latter ∧ first.Takes found former (latter ++ rest) ∧
        (second found).Takes value latter rest := by
  show (first.bind second).Takes value text rest ↔ _
  constructor
  · intro takes
    simp only [Takes, Pattern.bind] at takes
    split at takes
    · cases takes
    · rename_i found present
      split at takes
      · cases takes
      · rename_i later laterPresent
        obtain ⟨rfl, rfl, rfl⟩ := Match.mk.inj (Option.some.inj takes)
        have parts := (second found.value).taken_append_rest laterPresent
        refine ⟨found.value, found.taken, later.taken, rfl, ?_, takes_of_read laterPresent⟩
        rw [parts]
        exact takes_of_read present
  · rintro ⟨found, former, latter, rfl, takes, laterTakes⟩
    unfold Takes at takes laterTakes
    simp only [Takes, Pattern.bind, List.append_assoc, takes, laterTakes]

theorem read_bind_of_none {first : Pattern α} {second : α → Pattern β} {input : List Char}
    (absent : first.read input = none) : (first >>= second).read input = none := by
  show (first.bind second).read input = none
  simp only [Pattern.bind, absent]

theorem read_bind_of_takes {first : Pattern α} {second : α → Pattern β} {value : α}
    {text rest : List Char} (takes : first.Takes value text rest)
    (absent : (second value).read rest = none) : (first >>= second).read (text ++ rest) = none := by
  unfold Takes at takes
  show (first.bind second).read (text ++ rest) = none
  simp only [Pattern.bind, takes, absent]

theorem read_map_of_none {pattern : Pattern α} {change : α → β} {input : List Char}
    (absent : pattern.read input = none) : (change <$> pattern).read input = none :=
  read_bind_of_none absent

theorem takes_map {pattern : Pattern α} {change : α → β} {value : β} {text rest : List Char} :
    (change <$> pattern).Takes value text rest ↔
      ∃ found, value = change found ∧ pattern.Takes found text rest := by
  show (pattern >>= fun found => pure (change found)).Takes value text rest ↔ _
  rw [takes_bind]
  constructor
  · rintro ⟨found, former, latter, rfl, takes, last⟩
    obtain ⟨rfl, rfl⟩ := takes_pure.mp last
    rw [List.append_nil]
    exact ⟨found, rfl, takes⟩
  · rintro ⟨found, rfl, takes⟩
    exact ⟨found, text, [], (List.append_nil text).symm, takes, takes_pure.mpr ⟨rfl, rfl⟩⟩

theorem takes_orElse {first second : Pattern α} {value : α} {text rest : List Char} :
    (first <|> second).Takes value text rest ↔
      first.Takes value text rest ∨
        first.read (text ++ rest) = none ∧ second.Takes value text rest := by
  show (first.read (text ++ rest) <|> second.read (text ++ rest)) = _ ↔ _
  unfold Takes
  cases first.read (text ++ rest) with
  | none => simp
  | some found => simp

theorem read_orElse_eq_none {first second : Pattern α} {input : List Char} :
    (first <|> second).read input = none ↔ first.read input = none ∧ second.read input = none := by
  show (first.read input <|> second.read input) = none ↔ _
  cases first.read input with
  | none => exact ⟨fun absent => ⟨rfl, absent⟩, fun both => both.2⟩
  | some found =>
    constructor
    · rintro ⟨⟩
    · rintro ⟨⟨⟩, -⟩

theorem takes_optional {pattern : Pattern α} {value : Option α} {text rest : List Char} :
    (optional pattern).Takes value text rest ↔
      (∃ found, value = some found ∧ pattern.Takes found text rest) ∨
        value = none ∧ text = [] ∧ pattern.read rest = none := by
  rw [optional, takes_orElse, takes_map, takes_pure]
  have absent : (some <$> pattern).read (text ++ rest) = none ↔
      pattern.read (text ++ rest) = none := by
    rw [read_eq_none_iff, read_eq_none_iff]
    refine ⟨fun never value former latter parts takes => ?_,
      fun never value former latter parts takes => ?_⟩
    · exact never (some value) former latter parts (takes_map.mpr ⟨value, rfl, takes⟩)
    · obtain ⟨found, -, takes⟩ := takes_map.mp takes
      exact never found former latter parts takes
  rw [absent]
  constructor
  · rintro (found | ⟨absent, rfl, rfl⟩)
    · exact .inl found
    · exact .inr ⟨rfl, rfl, absent⟩
  · rintro (found | ⟨rfl, rfl, missing⟩)
    · exact .inl found
    · exact .inr ⟨missing, rfl, rfl⟩

/-- What is found is the text that is taken, and nothing is found where that text is empty. -/
theorem takes_optional_of_iff {pattern : Pattern (List Char)} {good : List Char → List Char → Prop}
    (takes : ∀ value text rest,
      pattern.Takes value text rest ↔ value = text ∧ text ≠ [] ∧ good text rest)
    (absent : ∀ rest, pattern.read rest = none ↔ good [] rest) {found : Option (List Char)}
    {text rest : List Char} :
    (optional pattern).Takes found text rest ↔
      found = (if text = [] then none else some text) ∧ good text rest := by
  rw [takes_optional]
  by_cases empty : text = []
  · subst empty
    rw [if_pos rfl, absent]
    constructor
    · rintro (⟨value, -, taken⟩ | ⟨rfl, -, missing⟩)
      · exact absurd rfl ((takes _ _ _).mp taken).2.1
      · exact ⟨rfl, missing⟩
    · rintro ⟨rfl, missing⟩
      exact .inr ⟨rfl, rfl, missing⟩
  · rw [if_neg empty]
    constructor
    · rintro (⟨value, rfl, taken⟩ | ⟨-, absurdity, -⟩)
      · obtain ⟨rfl, -, fits⟩ := (takes _ _ _).mp taken
        exact ⟨rfl, fits⟩
      · exact absurd absurdity empty
    · rintro ⟨rfl, fits⟩
      exact .inl ⟨text, rfl, (takes _ _ _).mpr ⟨rfl, empty, fits⟩⟩

theorem takes_text {pattern : Pattern α} {value text rest : List Char} :
    (Pattern.text pattern).Takes value text rest ↔
      value = text ∧ ∃ found, pattern.Takes found text rest := by
  constructor
  · intro takes
    obtain ⟨⟨found, taken, left⟩, present, same⟩ := Option.map_eq_some_iff.mp takes
    obtain ⟨rfl, rfl, rfl⟩ := Match.mk.inj same
    exact ⟨rfl, found, takes_of_read present⟩
  · rintro ⟨rfl, found, takes⟩
    exact Option.map_eq_some_iff.mpr ⟨_, takes, rfl⟩

theorem read_text_of_none {pattern : Pattern α} {input : List Char}
    (absent : pattern.read input = none) : (Pattern.text pattern).read input = none :=
  Option.map_eq_none_iff.mpr absent

theorem takes_nonempty {pattern : Pattern α} {value : α} {text rest : List Char} :
    (nonempty pattern).Takes value text rest ↔ pattern.Takes value text rest ∧ text ≠ [] := by
  show (pattern.read (text ++ rest)).filter _ = some _ ↔ _
  rw [Option.filter_eq_some_iff, Takes]
  simp

theorem read_nonempty_of_takes_nil {pattern : Pattern α} {value : α} {rest : List Char}
    (takes : pattern.Takes value [] rest) : (nonempty pattern).read rest = none := by
  show (pattern.read ([] ++ rest)).filter (fun found => !found.taken.isEmpty) = none
  unfold Takes at takes
  rw [takes]
  rfl

/-! ### Characters and words -/

theorem takes_sized {measure : List Char → Option Nat} {value text rest : List Char} :
    (sized measure).Takes value text rest ↔
      value = text ∧ measure (text ++ rest) = some text.length := by
  constructor
  · intro takes
    simp only [Takes, sized] at takes
    split at takes
    · cases takes
    · rename_i size measured
      split at takes
      · rename_i fits
        obtain ⟨rfl, same, left⟩ := Match.mk.inj (Option.some.inj takes)
        refine ⟨same, ?_⟩
        have length := congrArg List.length same
        rw [List.length_take, Nat.min_eq_left fits] at length
        rw [measured, length]
      · cases takes
  · rintro ⟨rfl, measured⟩
    simp only [Takes, sized, measured]
    rw [if_pos (by rw [List.length_append]; omega), List.take_left', List.drop_left']
    · rfl
    · rfl

theorem read_sized_of_none {measure : List Char → Option Nat} {input : List Char}
    (unmeasured : measure input = none) : (sized measure).read input = none := by
  simp only [sized, unmeasured]

theorem takes_run {accepted : Char → Bool} {value text rest : List Char} :
    (run accepted).Takes value text rest ↔
      value = text ∧ (∀ character ∈ text, accepted character = true) ∧ StopsAt accepted rest := by
  show some (⟨_, _, _⟩ : Match (List Char)) = some ⟨value, text, rest⟩ ↔ _
  rw [Option.some.injEq, Match.mk.injEq]
  constructor
  · rintro ⟨same, taken, left⟩
    refine ⟨same.symm.trans taken, ?_, ?_⟩
    · rw [← taken]
      exact fun character => accepted_of_mem_takeWhile
    · rw [← left]
      exact stopsAt_dropWhile _ _
  · rintro ⟨rfl, good, stops⟩
    have taken := takeWhile_append_of_stopsAt good stops
    exact ⟨taken, taken, dropWhile_append_of_stopsAt good stops⟩

theorem takes_run1 {accepted : Char → Bool} {value text rest : List Char} :
    (run1 accepted).Takes value text rest ↔
      value = text ∧ text ≠ [] ∧ (∀ character ∈ text, accepted character = true) ∧
        StopsAt accepted rest := by
  rw [run1, takes_nonempty, takes_run]
  constructor
  · rintro ⟨⟨rfl, good, stops⟩, nonempty⟩
    exact ⟨rfl, nonempty, good, stops⟩
  · rintro ⟨rfl, nonempty, good, stops⟩
    exact ⟨⟨rfl, good, stops⟩, nonempty⟩

theorem read_run1_of_stopsAt {accepted : Char → Bool} {input : List Char}
    (stops : StopsAt accepted input) : (run1 accepted).read input = none := by
  rw [read_eq_none_iff]
  rintro value text rest rfl takes
  obtain ⟨-, nonempty, good, -⟩ := takes_run1.mp takes
  obtain ⟨first, others, rfl⟩ := List.exists_cons_of_ne_nil nonempty
  exact not_stopsAt_cons (good first List.mem_cons_self) stops

theorem takes_one {accepted : Char → Bool} {value : Char} {text rest : List Char} :
    (one accepted).Takes value text rest ↔ text = [value] ∧ accepted value = true := by
  constructor
  · intro takes
    simp only [Takes, one] at takes
    split at takes
    · cases takes
    · rename_i first others input
      split at takes
      · rename_i good
        obtain ⟨rfl, rfl, rfl⟩ := Match.mk.inj (Option.some.inj takes)
        exact ⟨rfl, good⟩
      · cases takes
  · rintro ⟨rfl, good⟩
    simp only [Takes, one, List.cons_append, List.nil_append, if_pos good]

theorem takes_exactly {word value text rest : List Char} :
    (exactly word).Takes value text rest ↔ value = word ∧ text = word := by
  constructor
  · intro takes
    obtain ⟨others, start, same⟩ := Option.map_eq_some_iff.mp takes
    obtain ⟨rfl, rfl, rfl⟩ := Match.mk.inj same
    exact ⟨rfl, rfl⟩
  · rintro ⟨rfl, rfl⟩
    exact Option.map_eq_some_iff.mpr ⟨rest, isPrefixOf?_append _ rest, rfl⟩

theorem read_exactly_eq_none {word input : List Char} :
    (exactly word).read input = none ↔ ¬ word <+: input := by
  rw [← isPrefixOf?_eq_none_iff]
  exact Option.map_eq_none_iff

theorem takes_upTo {word value text rest : List Char} :
    (upTo word).Takes value text rest ↔
      value = text ∧ ∃ after, rest = word ++ after ∧ FirstCut word text after := by
  constructor
  · intro takes
    obtain ⟨⟨before, after⟩, occurrence, same⟩ := Option.map_eq_some_iff.mp takes
    obtain ⟨rfl, rfl, rfl⟩ := Match.mk.inj same
    exact ⟨rfl, after, rfl, (cut?_eq_some_iff.mp occurrence).2⟩
  · rintro ⟨rfl, after, rfl, first⟩
    refine Option.map_eq_some_iff.mpr ⟨(value, after), cut?_eq_some_iff.mpr ⟨?_, first⟩, rfl⟩
    rw [List.append_assoc]

theorem takes_spaced {pattern : Pattern α} {value : α} {text rest : List Char} :
    (spaced pattern).Takes value text rest ↔
      ∃ former gap, text = former ++ gap ∧ pattern.Takes value former (gap ++ rest) ∧
        AllBlank gap ∧ StopsAt isBlank rest := by
  rw [spaced, takes_bind]
  constructor
  · rintro ⟨found, former, latter, rfl, takes, last⟩
    obtain ⟨skipped, gap, nothing, rfl, blank, finished⟩ := takes_bind.mp last
    obtain ⟨rfl, rfl⟩ := takes_pure.mp finished
    obtain ⟨rfl, allBlank, stops⟩ := takes_run.mp blank
    rw [List.append_nil] at takes ⊢
    exact ⟨former, skipped, rfl, takes, allBlank, stops⟩
  · rintro ⟨former, gap, rfl, takes, allBlank, stops⟩
    refine ⟨value, former, gap, rfl, takes, takes_bind.mpr ⟨gap, gap, [], ?_, ?_, ?_⟩⟩
    · rw [List.append_nil]
    · exact takes_run.mpr ⟨rfl, allBlank, stops⟩
    · exact takes_pure.mpr ⟨rfl, rfl⟩

/-! ### Sequences that begin with a word or a run -/

theorem takes_exactly_bind {word text rest : List Char} {next : List Char → Pattern β} {value : β} :
    (exactly word >>= next).Takes value text rest ↔
      ∃ latter, text = word ++ latter ∧ (next word).Takes value latter rest := by
  rw [takes_bind]
  constructor
  · rintro ⟨found, former, latter, rfl, takes, later⟩
    obtain ⟨rfl, rfl⟩ := takes_exactly.mp takes
    exact ⟨latter, rfl, later⟩
  · rintro ⟨latter, rfl, later⟩
    exact ⟨word, word, latter, rfl, takes_exactly.mpr ⟨rfl, rfl⟩, later⟩

theorem takes_run_bind {accepted : Char → Bool} {text rest : List Char}
    {next : List Char → Pattern β} {value : β} :
    (run accepted >>= next).Takes value text rest ↔
      ∃ former latter, text = former ++ latter ∧
        (∀ character ∈ former, accepted character = true) ∧ StopsAt accepted (latter ++ rest) ∧
        (next former).Takes value latter rest := by
  rw [takes_bind]
  constructor
  · rintro ⟨found, former, latter, rfl, takes, later⟩
    obtain ⟨rfl, good, stops⟩ := takes_run.mp takes
    exact ⟨found, latter, rfl, good, stops, later⟩
  · rintro ⟨former, latter, rfl, good, stops, later⟩
    exact ⟨former, former, latter, rfl, takes_run.mpr ⟨rfl, good, stops⟩, later⟩

theorem takes_run1_bind {accepted : Char → Bool} {text rest : List Char}
    {next : List Char → Pattern β} {value : β} :
    (run1 accepted >>= next).Takes value text rest ↔
      ∃ former latter, text = former ++ latter ∧ former ≠ [] ∧
        (∀ character ∈ former, accepted character = true) ∧ StopsAt accepted (latter ++ rest) ∧
        (next former).Takes value latter rest := by
  rw [takes_bind]
  constructor
  · rintro ⟨found, former, latter, rfl, takes, later⟩
    obtain ⟨rfl, nonempty, good, stops⟩ := takes_run1.mp takes
    exact ⟨found, latter, rfl, nonempty, good, stops, later⟩
  · rintro ⟨former, latter, rfl, nonempty, good, stops, later⟩
    exact ⟨former, former, latter, rfl, takes_run1.mpr ⟨rfl, nonempty, good, stops⟩, later⟩

/-! ### Repetition -/

/-- Repetition has stopped when the pattern finds nothing or takes nothing. -/
def Ends (pattern : Pattern α) (rest : List Char) : Prop :=
  ∀ found, pattern.read rest = some found → found.taken = []

theorem ends_of_read {pattern : Pattern α} {rest : List Char} (absent : pattern.read rest = none) :
    pattern.Ends rest := by
  intro found present
  rw [absent] at present
  cases present

theorem readMany_of_ends {pattern : Pattern α} {rest : List Char} (ends : pattern.Ends rest) :
    pattern.readMany rest = ⟨[], [], rest⟩ := by
  rw [readMany]
  split
  · rfl
  · rename_i head present
    rw [dif_pos (ends head present)]

theorem readMany_of_takes {pattern : Pattern α} {value : α} {text rest : List Char}
    (takes : pattern.Takes value text rest) (nonempty : text ≠ []) :
    pattern.readMany (text ++ rest) =
      ⟨value :: (pattern.readMany rest).value, text ++ (pattern.readMany rest).taken,
        (pattern.readMany rest).rest⟩ := by
  unfold Takes at takes
  rw [readMany]
  split
  · rename_i absent
    rw [absent] at takes
    cases takes
  · rename_i head present
    obtain rfl := Option.some.inj (present.symm.trans takes)
    rw [dif_neg nonempty]

theorem takes_many {pattern : Pattern α} {values : List α} {text rest : List Char} :
    (many pattern).Takes values text rest ↔
      values = [] ∧ text = [] ∧ pattern.Ends rest ∨
        ∃ value others former latter, values = value :: others ∧ text = former ++ latter ∧
          former ≠ [] ∧ pattern.Takes value former (latter ++ rest) ∧
          (many pattern).Takes others latter rest := by
  constructor
  · intro takes
    have run := Option.some.inj takes
    by_cases ends : pattern.Ends (text ++ rest)
    · rw [readMany_of_ends ends] at run
      obtain ⟨rfl, rfl, -⟩ := Match.mk.inj run
      exact .inl ⟨rfl, rfl, ends⟩
    · simp only [Ends, Classical.not_forall] at ends
      obtain ⟨head, present, nonempty⟩ := ends
      have headTakes := takes_of_read present
      rw [← pattern.taken_append_rest present, readMany_of_takes headTakes nonempty] at run
      obtain ⟨rfl, rfl, left⟩ := Match.mk.inj run
      have parts := pattern.readMany_taken_append_rest head.rest
      rw [left] at parts
      refine .inr ⟨head.value, _, head.taken, _, rfl, rfl, nonempty, ?_, ?_⟩
      · rw [parts]
        exact headTakes
      · show some (pattern.readMany _) = _
        rw [parts]
        simp only [← left]
  · rintro (⟨rfl, rfl, ends⟩ | ⟨value, others, former, latter, rfl, rfl, nonempty, takes, later⟩)
    · show some (pattern.readMany ([] ++ rest)) = _
      rw [List.nil_append, readMany_of_ends ends]
    · have run := Option.some.inj later
      show some (pattern.readMany _) = _
      rw [List.append_assoc, readMany_of_takes takes nonempty, run]

theorem takes_many_nil {pattern : Pattern α} {rest : List Char}
    (absent : pattern.read rest = none) : (many pattern).Takes [] [] rest :=
  takes_many.mpr (.inl ⟨rfl, rfl, ends_of_read absent⟩)

theorem takes_many_cons {pattern : Pattern α} {value : α} {values : List α}
    {former latter rest : List Char} (nonempty : former ≠ [])
    (takes : pattern.Takes value former (latter ++ rest))
    (later : (many pattern).Takes values latter rest) :
    (many pattern).Takes (value :: values) (former ++ latter) rest :=
  takes_many.mpr (.inr ⟨value, values, former, latter, rfl, rfl, nonempty, takes, later⟩)

end Pattern

end CssSyntax
