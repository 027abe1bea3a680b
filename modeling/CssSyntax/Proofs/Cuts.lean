/-
This file cuts a text short behind a match.

Many patterns look farther than they take: for the closing quote of a string, for the closing
parenthesis of a group, for the semicolon behind a query. Two properties say that this does no harm
when the text is cut. A steady pattern takes the same text in front of whatever beginning of the
rest is kept. A fading pattern that finds nothing finds nothing in less text either. Steadiness of a
choice or of a repetition needs both, because what was passed by must be passed by again.
-/

import CssSyntax.Proofs.Recognition

namespace CssSyntax

/-! ### Beginnings of texts -/

variable {accepted : Char → Bool} {short long : List Char}

theorem StopsAt.cut (stops : StopsAt accepted long) (cut : short <+: long) :
    StopsAt accepted short := by
  cases short with
  | nil => exact trivial
  | cons first short =>
    obtain ⟨others, rfl⟩ := cut
    exact stops

theorem takeWhile_prefix_of_prefix (cut : short <+: long) :
    short.takeWhile accepted <+: long.takeWhile accepted := by
  obtain ⟨others, rfl⟩ := cut
  rw [List.takeWhile_append]
  split
  · rename_i whole
    have all : short.takeWhile accepted = short :=
      (List.takeWhile_prefix accepted).eq_of_length whole
    rw [all]
    exact List.prefix_append _ _
  · exact List.prefix_rfl

/-! ### Strings -/

section Strings

variable {quote : Char} {size : Nat}

theorem closingQuote?_append (other : quote ≠ '\\') {text : List Char}
    (closed : closingQuote? quote text = some size) (more : List Char) :
    closingQuote? quote (text ++ more) = some size := by
  fun_induction closingQuote? quote text generalizing size with
  | case1 | case3 => cases closed
  | case2 =>
    obtain rfl := Option.some.inj closed
    cases more with
    | nil => exact if_pos rfl
    | cons next more =>
      rw [List.singleton_append, closingQuote?, if_neg fun both => other both.1, if_pos rfl]
  | case4 first second rest escaped inductionHypothesis =>
    obtain ⟨size, later, rfl⟩ := Option.map_eq_some_iff.mp closed
    rw [List.cons_append, List.cons_append, closingQuote?, if_pos escaped,
      inductionHypothesis later]
    rfl
  | case5 second rest unescaped =>
    obtain rfl := Option.some.inj closed
    rw [List.cons_append, List.cons_append, closingQuote?, if_neg unescaped, if_pos rfl]
  | case6 first second rest unescaped differ inductionHypothesis =>
    obtain ⟨size, later, rfl⟩ := Option.map_eq_some_iff.mp closed
    rw [List.cons_append, List.cons_append, closingQuote?, if_neg unescaped, if_neg differ,
      ← List.cons_append, inductionHypothesis later]
    rfl

theorem closingQuote?_of_append {text more : List Char}
    (closed : closingQuote? quote (text ++ more) = some size) (inside : size < text.length) :
    closingQuote? quote text = some size := by
  fun_induction closingQuote? quote text generalizing size with
  | case1 => cases inside
  | case2 =>
    rw [List.length_singleton, Nat.lt_one_iff] at inside
    rw [inside]
  | case3 last differ =>
    rw [List.length_singleton, Nat.lt_one_iff] at inside
    subst inside
    cases more with
    | nil =>
      rw [List.append_nil, closingQuote?, if_neg differ] at closed
      cases closed
    | cons next more =>
      rw [List.singleton_append, closingQuote?, if_neg differ] at closed
      split at closed
      · obtain ⟨found, -, absurdity⟩ := Option.map_eq_some_iff.mp closed
        cases absurdity
      · obtain ⟨found, -, absurdity⟩ := Option.map_eq_some_iff.mp closed
        cases absurdity
  | case4 first second rest escaped inductionHypothesis =>
    rw [List.cons_append, List.cons_append, closingQuote?, if_pos escaped] at closed
    obtain ⟨size, later, rfl⟩ := Option.map_eq_some_iff.mp closed
    simp only [List.length_cons] at inside
    rw [inductionHypothesis later (by omega)]
    rfl
  | case5 second rest unescaped =>
    rw [List.cons_append, List.cons_append, closingQuote?, if_neg unescaped, if_pos rfl] at closed
    rw [closed]
  | case6 first second rest unescaped differ inductionHypothesis =>
    rw [List.cons_append, List.cons_append, closingQuote?, if_neg unescaped, if_neg differ,
      ← List.cons_append] at closed
    obtain ⟨size, later, rfl⟩ := Option.map_eq_some_iff.mp closed
    rw [List.length_cons] at inside
    rw [inductionHypothesis later (by omega)]
    rfl

theorem idxOf?_append (mark : Char) (text more : List Char) :
    (text ++ more).idxOf? mark =
      (text.idxOf? mark).or ((more.idxOf? mark).map (· + text.length)) :=
  List.findIdx?_append

/-- The quote that closes a string whose body may go on to the end of the text. -/
def closes? (quote : Char) (text : List Char) : Option Nat :=
  closingQuote? quote text <|> text.idxOf? quote

theorem split_of_closes? {text : List Char} (closed : closes? quote text = some size) :
    ∃ before after, text = before ++ quote :: after ∧ before.length = size := by
  rcases eq_some_of_orElse closed with first | fallback
  · exact split_of_closingQuote? first
  · exact split_of_idxOf? fallback

theorem closes?_eq_none_iff {text : List Char} : closes? quote text = none ↔ quote ∉ text := by
  show (closingQuote? quote text <|> Quoting.value.escapedClosingQuote? quote text) = none ↔ _
  exact closingQuote_eq_none_iff

/-- The string closes at the same quote in a beginning of the text that has that quote in it. -/
theorem closes?_of_prefix (other : quote ≠ '\\') (cut : short <+: long)
    (closed : closes? quote long = some size) (inside : size < short.length) :
    closes? quote short = some size := by
  obtain ⟨more, rfl⟩ := cut
  rcases eq_some_of_orElse closed with first | fallback
  · rw [closes?, closingQuote?_of_append first inside]
    rfl
  · cases plain : closingQuote? quote short with
    | some early =>
      rw [closes?, closingQuote?_append other plain more] at closed
      rw [closes?, plain]
      exact closed
    | none =>
      rw [closes?, plain]
      rw [idxOf?_append] at fallback
      cases found : short.idxOf? quote with
      | some early =>
        rw [found] at fallback
        exact fallback
      | none =>
        rw [found, Option.none_or] at fallback
        obtain ⟨late, -, same⟩ := Option.map_eq_some_iff.mp fallback
        omega

end Strings

theorem length?_value_eq (quote first : Char) (body : List Char) :
    Quoting.value.length? quote (first :: body) =
      if first = quote then (closes? quote (Quoting.value.reach body)).map (· + 2) else none := rfl

/-- A string has the same length in front of less text. -/
theorem length?_of_cut {quote : Char} (other : quote ≠ '\\') {text rest cut : List Char}
    (less : cut <+: rest)
    (measured : Quoting.value.length? quote (text ++ rest) = some text.length) :
    Quoting.value.length? quote (text ++ cut) = some text.length := by
  cases text with
  | nil =>
    obtain ⟨body, after, -, absurdity, -⟩ := split_of_length? measured
    cases absurdity
  | cons first body =>
    rw [List.cons_append, length?_value_eq] at measured ⊢
    split at measured
    · rename_i same
      obtain ⟨size, closed, length⟩ := Option.map_eq_some_iff.mp measured
      rw [List.length_cons] at length
      obtain ⟨before, after, parts, rfl⟩ := split_of_closes? closed
      -- the body is on one line, so the cut does not shorten what the string may reach
      have fits : body.length ≤ (Quoting.value.reach (body ++ rest)).length := by
        rw [parts, List.length_append, List.length_cons]
        omega
      have line : body <+: Quoting.value.reach (body ++ rest) :=
        List.prefix_of_prefix_length_le (List.prefix_append body rest)
          (List.takeWhile_prefix _) fits
      have good : ∀ character ∈ body, (!isLineBreak character) = true :=
        fun character member => accepted_of_mem_takeWhile (line.subset member)
      have reached : Quoting.value.reach (body ++ cut) = body ++ Quoting.value.reach cut :=
        List.takeWhile_append_of_pos good
      have inside : before.length < (Quoting.value.reach (body ++ cut)).length := by
        rw [reached, List.length_append]
        omega
      have shorter : Quoting.value.reach (body ++ cut) <+: Quoting.value.reach (body ++ rest) :=
        takeWhile_prefix_of_prefix ((List.prefix_append_right_inj body).mpr less)
      rw [if_pos same, closes?_of_prefix other shorter closed inside, Option.map_some,
        List.length_cons, length]
    · cases measured

theorem length?_eq_none_of_cut {quote : Char} (less : short <+: long)
    (unmeasured : Quoting.value.length? quote long = none) :
    Quoting.value.length? quote short = none := by
  cases short with
  | nil => rfl
  | cons first body =>
    obtain ⟨more, rfl⟩ := less
    rw [List.cons_append, length?_value_eq] at unmeasured
    rw [length?_value_eq]
    split
    · rename_i same
      rw [if_pos same, Option.map_eq_none_iff, closes?_eq_none_iff] at unmeasured
      have shorter : Quoting.value.reach body <+: Quoting.value.reach (body ++ more) :=
        takeWhile_prefix_of_prefix (List.prefix_append _ _)
      rw [closes?_eq_none_iff.mpr fun member => unmeasured (shorter.subset member)]
      rfl
    · rfl

theorem lengthAt?_eq_none_iff {quoting : Quoting} {text : List Char} :
    quoting.lengthAt? text = none ↔
      quoting.length? '"' text = none ∧ quoting.length? '\'' text = none := by
  rw [Quoting.lengthAt?]
  cases quoting.length? '"' text <;> simp

namespace Pattern

variable {α β : Type}

/-! ### Steady and fading patterns -/

/-- What the pattern takes, it takes as well in front of a beginning of the rest. -/
def Steady (pattern : Pattern α) : Prop :=
  ∀ ⦃value text rest cut⦄, cut <+: rest → pattern.Takes value text rest →
    pattern.Takes value text cut

/-- Where the pattern finds nothing, it finds nothing in a beginning of the text either. -/
def Fading (pattern : Pattern α) : Prop :=
  ∀ ⦃input cut⦄, cut <+: input → pattern.read input = none → pattern.read cut = none

/-- The pattern takes at least one character. -/
def Progresses (pattern : Pattern α) : Prop :=
  ∀ ⦃value rest⦄, ¬ pattern.Takes value [] rest

section

variable {pattern first second : Pattern α} {next : α → Pattern β}

theorem steady_pure (value : α) : Steady (pure value : Pattern α) := by
  intro found text rest cut less takes
  exact takes_pure.mpr (takes_pure.mp takes)

theorem fading_pure (value : α) : Fading (pure value : Pattern α) := by
  rintro input cut less ⟨⟩

theorem steady_bind (former : Steady pattern) (latter : ∀ value, Steady (next value)) :
    Steady (pattern >>= next) := by
  intro value text rest cut less takes
  obtain ⟨found, head, tail, rfl, takes, later⟩ := takes_bind.mp takes
  refine takes_bind.mpr ⟨found, head, tail, rfl, former ?_ takes, latter found less later⟩
  exact (List.prefix_append_right_inj tail).mpr less

theorem steady_map (change : α → β) (steady : Steady pattern) : Steady (change <$> pattern) :=
  steady_bind steady fun _ => steady_pure _

theorem read_ne_none_of_takes {value : α} {text rest : List Char}
    (takes : pattern.Takes value text rest) : pattern.read (text ++ rest) ≠ none := by
  unfold Takes at takes
  rw [takes]
  exact Option.some_ne_none _

theorem read_bind_eq_none_of_takes {value : α} {text rest : List Char}
    (takes : pattern.Takes value text rest)
    (absent : (pattern >>= next).read (text ++ rest) = none) : (next value).read rest = none := by
  rw [read_eq_none_iff] at absent ⊢
  rintro found former latter rfl later
  refine absent found (text ++ former) latter (List.append_assoc ..).symm (takes_bind.mpr ?_)
  exact ⟨value, text, former, rfl, takes, later⟩

/-- The pattern finds something in every text. -/
def Total (pattern : Pattern α) : Prop := ∀ input, pattern.read input ≠ none

theorem total_pure (value : α) : Total (pure value : Pattern α) := fun _ => Option.some_ne_none _

theorem total_optional (pattern : Pattern α) : Total (optional pattern) :=
  fun _ absent => total_pure none _ (read_orElse_eq_none.mp absent).2

theorem total_bind (former : Total pattern) (latter : ∀ value, Total (next value)) :
    Total (pattern >>= next) := by
  intro input absent
  cases present : pattern.read input with
  | none => exact former input present
  | some found =>
    rw [← pattern.taken_append_rest present] at absent
    exact latter _ _ (read_bind_eq_none_of_takes (takes_of_read present) absent)

/-- A sequence is absent where its beginning is, when the rest of it cannot be missing. -/
theorem read_bind_eq_none_iff (total : ∀ value, Total (next value)) {input : List Char} :
    (pattern >>= next).read input = none ↔ pattern.read input = none := by
  refine ⟨fun absent => ?_, read_bind_of_none⟩
  cases present : pattern.read input with
  | none => rfl
  | some found =>
    rw [← pattern.taken_append_rest present] at absent
    exact absurd (read_bind_eq_none_of_takes (takes_of_read present) absent) (total _ _)

theorem fading_bind (fading : Fading pattern) (total : ∀ value, Total (next value)) :
    Fading (pattern >>= next) := by
  intro input cut less absent
  rw [read_bind_eq_none_iff total] at absent ⊢
  exact fading less absent

theorem fading_map (change : α → β) (fading : Fading pattern) : Fading (change <$> pattern) :=
  fading_bind fading fun _ => total_pure _

theorem total_run (accepted : Char → Bool) : Total (run accepted) := fun _ => Option.some_ne_none _

theorem read_spaced_eq_none {pattern : Pattern α} {input : List Char} :
    pattern.spaced.read input = none ↔ pattern.read input = none :=
  read_bind_eq_none_iff fun _ => total_bind (total_run _) fun _ => total_pure _

theorem fading_spaced (fading : Fading pattern) : Fading (spaced pattern) :=
  fading_bind fading fun _ => total_bind (total_run _) fun _ => total_pure _

theorem steady_orElse (steady : Steady first) (fading : Fading first) (other : Steady second) :
    Steady (first <|> second) := by
  intro value text rest cut less takes
  rcases takes_orElse.mp takes with former | ⟨absent, latter⟩
  · exact takes_orElse.mpr (.inl (steady less former))
  · have shorter := (List.prefix_append_right_inj text).mpr less
    exact takes_orElse.mpr (.inr ⟨fading shorter absent, other less latter⟩)

theorem fading_orElse (former : Fading first) (latter : Fading second) :
    Fading (first <|> second) := by
  intro input cut less absent
  obtain ⟨neither, nor⟩ := read_orElse_eq_none.mp absent
  exact read_orElse_eq_none.mpr ⟨former less neither, latter less nor⟩

theorem steady_optional (steady : Steady pattern) (fading : Fading pattern) :
    Steady (optional pattern) := by
  intro value text rest cut less takes
  rcases takes_optional.mp takes with ⟨found, rfl, present⟩ | ⟨rfl, rfl, absent⟩
  · exact takes_optional.mpr (.inl ⟨found, rfl, steady less present⟩)
  · exact takes_optional.mpr (.inr ⟨rfl, rfl, fading less absent⟩)

theorem steady_text (steady : Steady pattern) : Steady (Pattern.text pattern) := by
  intro value text rest cut less takes
  obtain ⟨rfl, found, takes⟩ := takes_text.mp takes
  exact takes_text.mpr ⟨rfl, found, steady less takes⟩

theorem fading_text (fading : Fading pattern) : Fading (Pattern.text pattern) := by
  intro input cut less absent
  exact read_text_of_none (fading less (Option.map_eq_none_iff.mp absent))

theorem steady_nonempty (steady : Steady pattern) : Steady (nonempty pattern) := by
  intro value text rest cut less takes
  obtain ⟨takes, filled⟩ := takes_nonempty.mp takes
  exact takes_nonempty.mpr ⟨steady less takes, filled⟩

/-! ### Characters and words -/

theorem steady_run (accepted : Char → Bool) : Steady (run accepted) := by
  intro value text rest cut less takes
  obtain ⟨rfl, good, stops⟩ := takes_run.mp takes
  exact takes_run.mpr ⟨rfl, good, stops.cut less⟩

theorem steady_run1 (accepted : Char → Bool) : Steady (run1 accepted) :=
  steady_nonempty (steady_run accepted)

theorem read_run1_eq_none_iff {accepted : Char → Bool} {input : List Char} :
    (run1 accepted).read input = none ↔ StopsAt accepted input := by
  refine ⟨fun absent => ?_, read_run1_of_stopsAt⟩
  cases input with
  | nil => exact trivial
  | cons first rest =>
    refine Bool.eq_false_iff.mpr fun good => ?_
    have filled : (first :: rest).takeWhile accepted ≠ [] := by
      rw [List.takeWhile_cons_of_pos good]
      exact List.cons_ne_nil _ _
    refine read_eq_none_iff.mp absent _ _ _ List.takeWhile_append_dropWhile.symm
      (takes_run1.mpr ⟨rfl, filled, ?_, stopsAt_dropWhile accepted _⟩)
    exact fun character => accepted_of_mem_takeWhile

theorem fading_run1 (accepted : Char → Bool) : Fading (run1 accepted) := by
  intro input cut less absent
  exact read_run1_eq_none_iff.mpr ((read_run1_eq_none_iff.mp absent).cut less)

theorem steady_one (accepted : Char → Bool) : Steady (one accepted) := by
  intro value text rest cut less takes
  exact takes_one.mpr (takes_one.mp takes)

theorem fading_one (accepted : Char → Bool) : Fading (one accepted) := by
  intro input cut less absent
  rw [read_eq_none_iff] at absent ⊢
  rintro value text rest rfl takes
  obtain ⟨more, rfl⟩ := less
  rw [List.append_assoc] at absent
  exact absent value text (rest ++ more) rfl (takes_one.mpr (takes_one.mp takes))

theorem steady_exactly (word : List Char) : Steady (exactly word) := by
  intro value text rest cut less takes
  exact takes_exactly.mpr (takes_exactly.mp takes)

theorem fading_exactly (word : List Char) : Fading (exactly word) := by
  intro input cut less absent
  rw [read_exactly_eq_none] at absent ⊢
  exact fun start => absent (start.trans less)

theorem steady_spaced (steady : Steady pattern) : Steady (spaced pattern) := by
  intro value text rest cut less takes
  obtain ⟨former, gap, rfl, takes, blank, stops⟩ := takes_spaced.mp takes
  have shorter := (List.prefix_append_right_inj gap).mpr less
  exact takes_spaced.mpr ⟨former, gap, rfl, steady shorter takes, blank, stops.cut less⟩

/-! ### Sequences and repetitions -/

theorem fading_exactly_bind {word : List Char} {next : List Char → Pattern β}
    (fading : Fading (next word)) : Fading (exactly word >>= next) := by
  intro input cut less absent
  by_cases ahead : word <+: cut
  · obtain ⟨rest, rfl⟩ := ahead
    obtain ⟨more, rfl⟩ := less
    rw [List.append_assoc] at absent
    have takes : ∀ behind, (exactly word).Takes word word behind :=
      fun behind => takes_exactly.mpr ⟨rfl, rfl⟩
    have later := read_bind_eq_none_of_takes (takes _) absent
    exact read_bind_of_takes (takes _) (fading (List.prefix_append rest more) later)
  · exact read_bind_of_none (read_exactly_eq_none.mpr ahead)

/-- A run that the cut shortens has nothing behind it. -/
theorem fading_run1_bind {accepted : Char → Bool} {next : List Char → Pattern β}
    (fading : ∀ text, Fading (next text)) (needy : ∀ text, (next text).read [] = none) :
    Fading (run1 accepted >>= next) := by
  intro input cut less absent
  cases present : (run1 accepted).read cut with
  | none => exact read_bind_of_none present
  | some found =>
    have parts := (run1 accepted).taken_append_rest present
    have takes := takes_of_read present
    rw [← parts] at less ⊢
    cases behind : found.rest with
    | nil =>
      rw [behind] at takes
      exact read_bind_of_takes takes (needy _)
    | cons mark rest =>
      rw [behind] at less takes
      obtain ⟨more, rfl⟩ := less
      obtain ⟨same, filled, good, stops⟩ := takes_run1.mp takes
      rw [List.append_assoc] at absent
      have whole : (run1 accepted).Takes found.value found.taken (mark :: rest ++ more) :=
        takes_run1.mpr ⟨same, filled, good, stops⟩
      have later := read_bind_eq_none_of_takes whole absent
      exact read_bind_of_takes takes (fading _ (List.prefix_append _ more) later)

theorem ends_iff_of_progresses (progresses : Progresses pattern) {rest : List Char} :
    pattern.Ends rest ↔ pattern.read rest = none := by
  refine ⟨fun ends => ?_, ends_of_read⟩
  cases present : pattern.read rest with
  | none => rfl
  | some found =>
    have takes := takes_of_read present
    rw [ends found present] at takes
    exact (progresses takes).elim

theorem steady_many (steady : Steady pattern) (fading : Fading pattern)
    (progresses : Progresses pattern) : Steady (many pattern) := by
  intro values text rest cut less takes
  induction values generalizing text with
  | nil =>
    rcases takes_many.mp takes with ⟨-, rfl, ends⟩ | ⟨value, others, former, latter, absurdity, -⟩
    · exact takes_many_nil (fading less ((ends_iff_of_progresses progresses).mp ends))
    · cases absurdity
  | cons value values inductionHypothesis =>
    rcases takes_many.mp takes with ⟨absurdity, -⟩ |
      ⟨head, others, former, latter, same, rfl, filled, first, later⟩
    · cases absurdity
    · obtain ⟨rfl, rfl⟩ := List.cons.inj same
      have shorter := (List.prefix_append_right_inj latter).mpr less
      exact takes_many_cons filled (steady shorter first) (inductionHypothesis later)

/-- A list of at least one piece is absent where its first piece is. -/
theorem read_pieces_eq_none_iff (progresses : Progresses pattern) {input : List Char} :
    (nonempty (text (many pattern))).read input = none ↔ pattern.read input = none := by
  constructor
  · intro absent
    rw [read_eq_none_iff] at absent ⊢
    rintro value former rest rfl takes
    have filled : former ≠ [] := by
      rintro rfl
      exact progresses takes
    have others : (many pattern).read rest = some (pattern.readMany rest) := rfl
    have later := takes_of_read others
    rw [← pattern.readMany_taken_append_rest rest] at takes absent
    have pieces := takes_text.mpr ⟨rfl, _, takes_many_cons filled takes later⟩
    exact absent _ _ _ (List.append_assoc ..).symm
      (takes_nonempty.mpr ⟨pieces, List.append_ne_nil_of_left_ne_nil filled _⟩)
  · intro absent
    exact read_nonempty_of_takes_nil (takes_text.mpr ⟨rfl, [], takes_many_nil absent⟩)

end

end Pattern

namespace Grammar

open Pattern

/-! ### Declarations -/

theorem steady_quotedSegment : Steady quotedSegment := by
  intro value text rest cut less takes
  obtain ⟨rfl, measured⟩ := takes_sized.mp takes
  refine takes_sized.mpr ⟨rfl, ?_⟩
  cases double : Quoting.value.length? '"' (value ++ rest) with
  | some size =>
    rw [Quoting.lengthAt?, double] at measured
    obtain rfl := Option.some.inj measured
    rw [Quoting.lengthAt?, length?_of_cut (by decide) less double]
    rfl
  | none =>
    rw [Quoting.lengthAt?, double] at measured
    have shorter := (List.prefix_append_right_inj value).mpr less
    rw [Quoting.lengthAt?, length?_eq_none_of_cut shorter double]
    exact length?_of_cut (by decide) less measured

theorem read_quotedSegment_eq_none_iff {input : List Char} :
    quotedSegment.read input = none ↔ Quoting.value.lengthAt? input = none := by
  refine ⟨fun absent => ?_, read_sized_of_none⟩
  cases measured : Quoting.value.lengthAt? input with
  | none => rfl
  | some size =>
    obtain ⟨quote, body, after, rfl, rfl, -⟩ := split_of_lengthAt? measured
    have whole : quote :: body ++ quote :: after = (quote :: body ++ [quote]) ++ after := by simp
    rw [whole] at measured absent
    refine absurd absent (read_ne_none_of_takes (takes_sized.mpr ⟨rfl, ?_⟩))
    rw [measured]
    simp

theorem fading_quotedSegment : Fading quotedSegment := by
  intro input cut less absent
  rw [read_quotedSegment_eq_none_iff, lengthAt?_eq_none_iff] at absent ⊢
  exact ⟨length?_eq_none_of_cut less absent.1, length?_eq_none_of_cut less absent.2⟩

theorem steady_groupSegment : Steady groupSegment := by
  intro value text rest cut less takes
  exact takes_groupSegment.mpr (takes_groupSegment.mp takes)

theorem fading_groupSegment : Fading groupSegment := by
  intro input cut less absent
  rw [read_eq_none_iff] at absent ⊢
  rintro value text rest rfl takes
  obtain ⟨more, rfl⟩ := less
  rw [List.append_assoc] at absent
  exact absent value text (rest ++ more) rfl (takes_groupSegment.mpr (takes_groupSegment.mp takes))

theorem steady_segment : Steady segment := by
  have bare : Steady bareSegment := steady_text (steady_one _)
  exact steady_orElse steady_quotedSegment fading_quotedSegment
    (steady_orElse steady_groupSegment fading_groupSegment bare)

theorem fading_segment : Fading segment := by
  have bare : Fading bareSegment := fading_text (fading_one _)
  exact fading_orElse fading_quotedSegment (fading_orElse fading_groupSegment bare)

theorem progresses_segment : Progresses segment := by
  intro value rest takes
  rcases takes_orElse.mp takes with quoted | ⟨-, unquoted⟩
  · obtain ⟨rfl, measured⟩ := takes_sized.mp quoted
    obtain ⟨quote, body, after, -, absurdity, -⟩ := split_of_lengthAt? measured
    cases absurdity
  · rcases takes_orElse.mp unquoted with group | ⟨-, bare⟩
    · obtain ⟨-, inner, absurdity, -⟩ := takes_groupSegment.mp group
      cases absurdity
    · obtain ⟨-, character, absurdity, -⟩ := takes_bareSegment.mp bare
      cases absurdity

theorem steady_declarationValue : Steady declarationValue :=
  steady_nonempty (steady_text (steady_many steady_segment fading_segment progresses_segment))

theorem fading_declarationValue : Fading declarationValue := by
  intro input cut less absent
  rw [declarationValue, read_pieces_eq_none_iff progresses_segment] at absent ⊢
  exact fading_segment less absent

theorem steady_propertyName : Steady propertyName := by
  have bracket : Steady (exactly [']']) := steady_exactly _
  have bracketed : Steady (do
      let _ ← exactly ['[']
      let _ ← run1 isAttributeChar
      exactly [']']) :=
    steady_bind (steady_exactly _) fun _ => steady_bind (steady_run1 _) fun _ => bracket
  have missing : Fading (do
      let _ ← exactly ['[']
      let _ ← run1 isAttributeChar
      exactly [']']) :=
    fading_exactly_bind (fading_run1_bind (fun _ => fading_exactly _) fun _ => rfl)
  have star := steady_optional (steady_exactly ['*']) (fading_exactly _)
  exact steady_spaced (steady_text (steady_bind star fun _ =>
    steady_bind (steady_run1 _) fun _ => steady_optional bracketed missing))

/-! ### Openings with a keyword -/

theorem steady_mark (mark : Char) : Steady (spaced (exactly [mark])) :=
  steady_spaced (steady_exactly _)

theorem steady_commentBody : Steady commentBody := by
  intro value text rest cut less takes
  exact takes_commentBody.mpr (takes_commentBody.mp takes)

theorem steady_condition (name : AtKeyword) : Steady (condition name) :=
  steady_bind (steady_exactly _) fun _ => steady_bind (steady_run1 _) fun _ => steady_pure _

theorem fading_condition (name : AtKeyword) : Fading (condition name) :=
  fading_exactly_bind (fading_map trimmed (fading_run1 _))

theorem steady_payload (name : AtKeyword) : Steady (payload name) := by
  intro value text rest cut less takes
  exact takes_payload.mpr (takes_payload.mp takes)

theorem fading_payload (name : AtKeyword) : Fading (payload name) := by
  refine fading_exactly_bind (fading_run1_bind (fun text => ?_) fun text => rfl)
  exact fading_exactly_bind (fading_pure _)

theorem steady_pageOpening : Steady pageOpening := by
  have selectors : Steady (optional selectorText) :=
    steady_optional (steady_run1 _) (fading_run1 _)
  exact steady_bind (steady_exactly _) fun _ => steady_bind (steady_run _) fun _ =>
    steady_bind selectors fun _ => steady_pure _

theorem fading_pageOpening : Fading pageOpening :=
  fading_bind (fading_exactly _) fun _ => total_bind (total_run _) fun _ =>
    total_bind (total_optional _) fun _ => total_pure _

theorem steady_bare (name : AtKeyword) : Steady (keyword name).spaced :=
  steady_spaced (steady_exactly _)

theorem fading_bare (name : AtKeyword) : Fading (keyword name).spaced :=
  fading_spaced (fading_exactly _)

/-! ### Keywords with a vendor -/

theorem cutLast?_isSome_of_infix {word text : List Char} (inside : word <:+: text) :
    (cutLast? word text).isSome = true := by
  induction text with
  | nil =>
    obtain rfl := List.infix_nil.mp inside
    rfl
  | cons first text inductionHypothesis =>
    rw [cutLast?]
    split
    · rfl
    · rename_i absent
      rcases List.infix_cons_iff.mp inside with ⟨rest, start⟩ | later
      · rw [← start, isPrefixOf?_append]
        rfl
      · have present := inductionHypothesis later
        rw [absent] at present
        cases present

/-- Cutting finds the last occurrence of the word, and finds it whenever there is one. -/
theorem cutLast?_eq_some_iff {word text before after : List Char} (nonempty : word ≠ []) :
    cutLast? word text = some (before, after) ↔
      text = before ++ word ++ after ∧ ¬ word <:+: (word ++ after).tail := by
  obtain ⟨head, others, rfl⟩ := List.exists_cons_of_ne_nil nonempty
  induction text generalizing before after with
  | nil =>
    constructor
    · rintro ⟨⟩
    · rintro ⟨parts, -⟩
      simp at parts
  | cons first text inductionHypothesis =>
    rw [cutLast?]
    cases present : cutLast? (head :: others) text with
    | some sides =>
      obtain ⟨inside, never⟩ := inductionHypothesis.mp present
      have occurs : head :: others <:+: text := ⟨sides.1, sides.2, inside.symm⟩
      constructor
      · intro same
        obtain ⟨rfl, rfl⟩ := Prod.mk.inj (Option.some.inj same)
        exact ⟨congrArg (first :: ·) inside, never⟩
      · rintro ⟨parts, last⟩
        cases before with
        | nil =>
          obtain ⟨rfl, rfl⟩ := List.cons.inj parts
          exact absurd occurs last
        | cons lead before =>
          have same := (inductionHypothesis.mpr ⟨(List.cons.inj parts).2, last⟩).symm.trans present
          rw [← Option.some.inj same, (List.cons.inj parts).1]
    | none =>
      have never : ¬ head :: others <:+: text := by
        intro inside
        have found := cutLast?_isSome_of_infix inside
        rw [present] at found
        cases found
      constructor
      · intro same
        obtain ⟨rest, start, equal⟩ := Option.map_eq_some_iff.mp same
        obtain ⟨rfl, rfl⟩ := Prod.mk.inj equal
        have parts := eq_append_of_isPrefixOf? start
        refine ⟨parts, ?_⟩
        rw [← parts]
        exact never
      · rintro ⟨parts, last⟩
        cases before with
        | nil =>
          rw [List.nil_append] at parts
          rw [parts, isPrefixOf?_append]
          rfl
        | cons lead before =>
          exact absurd ⟨before, after, (List.cons.inj parts).2.symm⟩ never

/-- A keyword with a vendor ends with the last keyword of its word. -/
theorem takes_vendorKeyword_iff {name : AtKeyword} {vendor : Option String}
    {text rest : List Char} :
    (vendorKeyword name).Takes vendor text rest ↔ text = name.vendored vendor ∧ IsVendor vendor ∧
      ¬ name.text.toList <:+: (name.text.toList ++ rest.takeWhile isIdentifierChar).tail := by
  have word (good : IsVendor vendor) :
      ((vendor.getD "").toList ++ (name.text.toList ++ rest)).takeWhile isIdentifierChar =
        (vendor.getD "").toList ++ name.text.toList ++ rest.takeWhile isIdentifierChar := by
    rw [← List.append_assoc]
    exact List.takeWhile_append_of_pos (identifier_of_vendor good)
  constructor
  · intro takes
    obtain ⟨rfl, good⟩ := vendored_of_takes takes
    refine ⟨rfl, good, ?_⟩
    obtain ⟨latter, parts, later⟩ := takes_exactly_bind.mp takes
    obtain ⟨found, former, tail, rfl, measured, ending⟩ := takes_bind.mp later
    obtain ⟨last, rfl, finished⟩ := takes_exactly_bind.mp ending
    obtain ⟨-, rfl⟩ := takes_pure.mp finished
    obtain ⟨rfl, size⟩ := takes_sized.mp measured
    rw [List.append_nil] at parts size
    obtain rfl := List.append_cancel_right (List.cons.inj parts).2
    rw [word good] at size
    obtain ⟨⟨before, after⟩, occurrence, length⟩ := Option.map_eq_some_iff.mp size
    obtain ⟨same, never⟩ := (cutLast?_eq_some_iff (text_ne_nil name)).mp occurrence
    rw [List.append_assoc, List.append_assoc] at same
    obtain ⟨-, behind⟩ := List.append_inj same length.symm
    rwa [List.append_cancel_left behind]
  · rintro ⟨rfl, good, last⟩
    refine takes_exactly_bind.mpr ⟨(vendor.getD "").toList ++ name.text.toList, rfl, ?_⟩
    refine takes_bind.mpr
      ⟨(vendor.getD "").toList, (vendor.getD "").toList, name.text.toList, rfl, ?_, ?_⟩
    · refine takes_sized.mpr ⟨rfl, ?_⟩
      rw [word good, (cutLast?_eq_some_iff (text_ne_nil name)).mpr ⟨rfl, last⟩]
      rfl
    · refine takes_exactly_bind.mpr ⟨[], (List.append_nil _).symm, takes_pure.mpr ⟨?_, rfl⟩⟩
      cases vendor with
      | none => rfl
      | some prefixed =>
        have present := (good prefixed rfl).1
        rw [Option.getD_some, List.isEmpty_eq_false_iff.mpr present, String.ofList_toList]
        rfl

theorem steady_vendorKeyword (name : AtKeyword) : Steady (vendorKeyword name) := by
  intro vendor text rest cut less takes
  obtain ⟨rfl, good, last⟩ := takes_vendorKeyword_iff.mp takes
  refine takes_vendorKeyword_iff.mpr ⟨rfl, good, fun inside => last (inside.trans ?_)⟩
  obtain ⟨more, whole⟩ : cut.takeWhile isIdentifierChar <+: rest.takeWhile isIdentifierChar :=
    takeWhile_prefix_of_prefix less
  obtain ⟨first, others, parts⟩ := List.exists_cons_of_ne_nil (text_ne_nil name)
  rw [← whole, parts]
  exact List.IsPrefix.isInfix ⟨more, by simp⟩

theorem read_vendorKeyword_eq_none_iff {name : AtKeyword} {input : List Char} :
    (vendorKeyword name).read input = none ↔ ∀ ahead, input = '@' :: ahead →
      ¬ name.text.toList <:+: ahead.takeWhile isIdentifierChar := by
  constructor
  · rintro absent ahead rfl inside
    have found := cutLast?_isSome_of_infix inside
    obtain ⟨⟨before, after⟩, occurrence⟩ := Option.isSome_iff_exists.mp found
    have whole : before ++ (name.text.toList ++ (after ++ ahead.dropWhile isIdentifierChar)) =
        ahead := by
      have parts := eq_append_of_cutLast? occurrence
      simp only [← List.append_assoc, ← parts, List.takeWhile_append_dropWhile]
    have takes : (vendorKeyword name).Takes
        (if before.isEmpty then none else some (String.ofList before))
        ('@' :: (before ++ name.text.toList)) (after ++ ahead.dropWhile isIdentifierChar) := by
      refine takes_exactly_bind.mpr ⟨_, rfl, takes_bind.mpr ⟨before, before, _, rfl, ?_, ?_⟩⟩
      · refine takes_sized.mpr ⟨rfl, ?_⟩
        rw [whole, occurrence]
        rfl
      · exact takes_exactly_bind.mpr ⟨[], (List.append_nil _).symm, takes_pure.mpr ⟨rfl, rfl⟩⟩
    refine read_ne_none_of_takes takes ?_
    rwa [List.cons_append, List.append_assoc, whole]
  · intro never
    by_cases sign : ['@'] <+: input
    · obtain ⟨ahead, rfl⟩ := sign
      have start : (exactly ['@']).Takes ['@'] ['@'] ahead := takes_exactly.mpr ⟨rfl, rfl⟩
      refine read_bind_of_takes start (read_bind_of_none (read_sized_of_none ?_))
      rw [cutLast?_eq_none (never ahead rfl)]
      rfl
    · exact read_bind_of_none (read_exactly_eq_none.mpr sign)

theorem fading_vendorKeyword (name : AtKeyword) : Fading (vendorKeyword name) := by
  intro input cut less absent
  rw [read_vendorKeyword_eq_none_iff] at absent ⊢
  rintro ahead rfl inside
  obtain ⟨more, rfl⟩ := less
  have shorter : ahead.takeWhile isIdentifierChar <+: (ahead ++ more).takeWhile isIdentifierChar :=
    takeWhile_prefix_of_prefix (List.prefix_append _ _)
  exact absent (ahead ++ more) rfl (inside.trans shorter.isInfix)

theorem steady_documentOpening : Steady documentOpening :=
  steady_bind (steady_vendorKeyword _) fun _ => steady_bind (steady_run1 _) fun _ => steady_pure _

/-- An opening of `@document` may come into being when its word is cut, but not when the cut is
behind a brace. -/
theorem fading_documentOpening {text rest cut : List Char} (less : cut <+: rest)
    (absent : documentOpening.read (text ++ '{' :: rest) = none) :
    documentOpening.read (text ++ '{' :: cut) = none := by
  have shorter : text ++ '{' :: cut <+: text ++ '{' :: rest :=
    (List.prefix_append_right_inj text).mpr (List.cons_prefix_cons.mpr ⟨rfl, less⟩)
  cases present : (vendorKeyword .document).read (text ++ '{' :: rest) with
  | none => exact read_bind_of_none (fading_vendorKeyword _ shorter present)
  | some found =>
    have parts := (vendorKeyword .document).taken_append_rest present
    have takes := takes_of_read present
    obtain ⟨word, good, -⟩ := takes_vendorKeyword_iff.mp takes
    have braceless : ∀ character ∈ found.taken, (character != '{') = true := by
      rw [word]
      refine List.forall_mem_cons.mpr ⟨by decide, fun character member => bne_iff_ne.mpr ?_⟩
      rintro rfl
      exact absurd (identifier_of_vendor good _ member) (by decide)
    have stops : StopsAt (fun character => character != '{') ('{' :: rest) :=
      (by decide : ('{' != '{') = false)
    obtain ⟨between, inside⟩ := prefix_of_stopsAt braceless stops ⟨found.rest, parts⟩
    rw [← inside, List.append_assoc] at parts absent ⊢
    rw [← inside, List.append_assoc, List.append_assoc] at shorter
    have behind := List.append_cancel_left parts
    rw [behind] at takes
    have later := read_bind_eq_none_of_takes takes absent
    have less := (List.prefix_append_right_inj found.taken).mp shorter
    have still := fading_map _ (fading_run1 _) less later
    exact read_bind_of_takes (steady_vendorKeyword _ less takes) still

/-! ### Custom media queries -/

theorem steady_customQuery : Steady customQuery := by
  intro value text rest cut less takes
  exact takes_customQuery.mpr (takes_customQuery.mp takes)

theorem fading_customQuery : Fading customQuery := by
  refine fading_run1_bind (fun text => ?_) fun text => rfl
  exact fading_exactly_bind (fading_pure _)

/-- What may be a name in front of less text may be one in front of more. -/
theorem NameLength.extend {length : Nat} {cut ahead : List Char} (less : cut <+: ahead)
    (fits : NameLength cut length) : NameLength ahead length := by
  obtain ⟨dashes, short, long, query⟩ := fits
  have shorter : cut.takeWhile (fun character => !isBlank character) <+:
      ahead.takeWhile fun character => !isBlank character := takeWhile_prefix_of_prefix less
  refine ⟨dashes.trans shorter, Nat.le_trans short shorter.length_le, long, fun absent => ?_⟩
  obtain ⟨more, rfl⟩ := less
  have inside := Nat.le_trans short (List.takeWhile_prefix _).length_le
  rw [List.drop_append_of_le_length inside] at absent
  exact query (fading_customQuery (List.prefix_append _ _) absent)

/-- The name and the query behind it. -/
def customPair : Pattern Leaf := do
  let name ← sized customNameLength?
  let query ← customQuery
  return .customMedia (String.ofList name) (trimmed query)

theorem steady_customPair : Steady customPair := by
  intro value text rest cut less takes
  obtain ⟨name, former, others, rfl, sizedTakes, later⟩ := takes_bind.mp takes
  obtain ⟨rfl, measured⟩ := takes_sized.mp sizedTakes
  obtain ⟨dashes, long, unbroken⟩ := name_of_customNameLength? measured
  have query := steady_bind steady_customQuery (fun _ => steady_pure _) less later
  refine takes_bind.mpr ⟨name, name, others, rfl, takes_sized.mpr ⟨rfl, ?_⟩, query⟩
  refine customNameLength?_eq_some_iff.mpr ⟨?_, fun other fits => ?_⟩
  · refine nameLength_append.mpr ⟨dashes, long, unbroken, ?_⟩
    obtain ⟨found, lead, tail, rfl, queried, -⟩ := takes_bind.mp query
    rw [List.append_assoc]
    exact read_ne_none_of_takes queried
  · have shorter := (List.prefix_append_right_inj name).mpr
      ((List.prefix_append_right_inj others).mpr less)
    exact (customNameLength?_eq_some_iff.mp measured).2 other (fits.extend shorter)

theorem fading_customPair : Fading customPair := by
  intro input cut less absent
  have unmeasured : customNameLength? input = none := by
    cases measured : customNameLength? input with
    | none => rfl
    | some length =>
      obtain ⟨-, short, -, query⟩ := (customNameLength?_eq_some_iff.mp measured).1
      have inside := Nat.le_trans short (List.takeWhile_prefix _).length_le
      have named : (sized customNameLength?).Takes (input.take length) (input.take length)
          (input.drop length) := by
        refine takes_sized.mpr ⟨rfl, ?_⟩
        rw [List.take_append_drop, measured, List.length_take, Nat.min_eq_left inside]
      rw [← List.take_append_drop length input] at absent
      have later := read_bind_eq_none_of_takes named absent
      exact absurd ((read_bind_eq_none_iff fun _ => total_pure _).mp later) query
  rw [customNameLength?_eq_none_iff] at unmeasured
  refine read_bind_of_none (read_sized_of_none ?_)
  exact customNameLength?_eq_none_iff.mpr fun length fits => unmeasured length (fits.extend less)

theorem steady_customMedia : Steady customMedia :=
  steady_bind (steady_exactly _) fun _ => steady_bind (steady_run1 _) fun _ => steady_customPair

theorem fading_customMedia : Fading customMedia :=
  fading_exactly_bind (fading_run1_bind (fun _ => fading_customPair) fun _ => rfl)

/-! ### Offsets of keyframes -/

theorem steady_decimal : Steady decimal := by
  have digits : Steady (run1 Char.isDigit) := steady_run1 _
  have fewer : Fading (run1 Char.isDigit) := fading_run1 _
  have point : Steady (exactly ['.']) := steady_exactly _
  refine steady_orElse ?_ ?_ (steady_orElse ?_ ?_ digits)
  · exact steady_text (steady_bind digits fun _ => steady_bind point fun _ => digits)
  · refine fading_text (fading_run1_bind (fun _ => fading_exactly_bind fewer) fun _ => rfl)
  · exact steady_text (steady_bind point fun _ => digits)
  · exact fading_text (fading_exactly_bind fewer)

theorem fading_decimal : Fading decimal := by
  have fewer : Fading (run1 Char.isDigit) := fading_run1 _
  refine fading_orElse ?_ (fading_orElse ?_ fewer)
  · exact fading_text (fading_run1_bind (fun _ => fading_exactly_bind fewer) fun _ => rfl)
  · exact fading_text (fading_exactly_bind fewer)

theorem steady_number : Steady (Pattern.text do
    let _ ← decimal
    optional (exactly ['%'])) := by
  have percent : Steady (optional (exactly ['%'])) :=
    steady_optional (steady_exactly _) (fading_exactly _)
  exact steady_text (steady_bind steady_decimal fun _ => percent)

theorem fading_number : Fading (Pattern.text do
    let _ ← decimal
    optional (exactly ['%'])) :=
  fading_text (fading_bind fading_decimal fun _ => total_optional (exactly ['%']))

theorem steady_keyframeOffset : Steady keyframeOffset :=
  steady_spaced (steady_orElse steady_number fading_number (steady_run1 _))

theorem fading_keyframeOffset : Fading keyframeOffset :=
  fading_spaced (fading_orElse fading_number (fading_run1 _))

theorem progresses_offset : Progresses (do
    let offset ← keyframeOffset
    let _ ← optional comma
    return offset) := by
  intro value rest takes
  obtain ⟨offset, former, latter, parts, first, -⟩ := takes_bind.mp takes
  obtain ⟨gap, rfl, good, -⟩ := isOffset_of_takes first
  obtain ⟨head, tail, rfl, -⟩ := isOffset_head good
  cases parts

theorem steady_offsets : Steady offsets := by
  have comma : Steady (optional comma) :=
    steady_optional (steady_mark ',') (fading_spaced (fading_exactly _))
  refine steady_many ?_ ?_ progresses_offset
  · exact steady_bind steady_keyframeOffset fun _ => steady_bind comma fun _ => steady_pure _
  · exact fading_bind fading_keyframeOffset fun _ =>
      total_bind (total_optional _) fun _ => total_pure _

end Grammar

end CssSyntax
