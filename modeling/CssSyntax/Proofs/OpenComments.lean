/-
This file says what becomes of the text behind a comment that is never closed.

A tolerant parse tells such a comment where a list meets it, and the list ends there. From then on
the parse is stuck: a block that the list was in lacks its closing brace, and a list around that
block meets the comment again. One thing sets it free. An at-rule without its closing brace is
given up, and what is left where it stopped is tried as a plain rule. To a selector the opener of a comment
is text like any other, so the rest of the text may still be read.

So there are two kinds of states. In a free state every unterminated comment that was told has had
an at-rule given up at its place. In a stuck state such a comment is ahead. At-rules end in free
states whatever comes of them, and plain rules and lists end in states of either kind.
-/

import CssSyntax.Proofs.Modes
import CssSyntax.Proofs.Positions

namespace CssSyntax

/-- An at-rule was given up at the place because its closing brace was missing. -/
def GivesUpAt (faults : List Fault) (place : Location) : Prop :=
  ∃ fault ∈ faults, fault.location = place ∧ ∃ name, fault.cause = .missingCloseBrace (.atRule name)

theorem GivesUpAt.later {faults more : List Fault} {place : Location}
    (gives : GivesUpAt faults place) (kept : faults <+: more) : GivesUpAt more place := by
  obtain ⟨fault, member, known⟩ := gives
  exact ⟨fault, kept.subset member, known⟩

namespace Grammar

variable {α β : Type} {state : State} {fault : Fault}

/-! ### Free states and stuck states -/

/-- Wherever an unterminated comment was told, an at-rule was given up. -/
def State.Free (state : State) : Prop :=
  ∀ fault ∈ state.faults, fault.cause = .unterminatedComment →
    GivesUpAt state.faults fault.location

/-- An unterminated comment is ahead. All others were told where an at-rule was given up. -/
structure State.Stuck (state : State) : Prop where
  ahead : commentOpener <+: state.cursor.rest
  unclosed : commentBody.read state.cursor.rest = none
  told : ∀ fault ∈ state.faults, fault.cause = .unterminatedComment →
    GivesUpAt state.faults fault.location ∨ fault.location = state.cursor.location

/-- The state is of one of the two kinds. -/
def State.Held (state : State) : Prop := state.Free ∨ state.Stuck

theorem State.Free.noting (free : state.Free) (other : fault.cause ≠ .unterminatedComment) :
    (state.noting fault).Free := by
  intro earlier member unterminated
  rcases List.mem_append.mp member with old | new
  · exact (free earlier old unterminated).later (List.prefix_append _ _)
  · rw [List.mem_singleton.mp new] at unterminated
    exact absurd unterminated other

theorem State.Stuck.noting (stuck : state.Stuck)
    (here : fault.cause = .unterminatedComment → fault.location = state.cursor.location) :
    (state.noting fault).Stuck where
  ahead := stuck.ahead
  unclosed := stuck.unclosed
  told := by
    intro earlier member unterminated
    rcases List.mem_append.mp member with old | new
    · exact (stuck.told earlier old unterminated).imp_left (·.later (List.prefix_append _ _))
    · rw [List.mem_singleton.mp new] at unterminated ⊢
      exact .inr (here unterminated)

/-- Giving up an at-rule sets a stuck state free. -/
theorem State.Stuck.free (stuck : state.Stuck) {name : String} {source : Option String} :
    (state.noting
      ⟨.missingCloseBrace (.atRule name), source, state.cursor.location⟩).Free := by
  intro earlier member unterminated
  rcases List.mem_append.mp member with old | new
  · rcases stuck.told earlier old unterminated with given | here
    · exact given.later (List.prefix_append _ _)
    · exact ⟨_, List.mem_append_right _ List.mem_cons_self, here.symm, name, rfl⟩
  · rw [List.mem_singleton.mp new] at unterminated
    cases unterminated

/-- Where a comment has no end, a state of either kind is stuck. -/
theorem State.Held.stuck (held : state.Held) (ahead : commentOpener <+: state.cursor.rest)
    (unclosed : commentBody.read state.cursor.rest = none) : state.Stuck :=
  ⟨ahead, unclosed, fun earlier member unterminated =>
    held.elim (fun free => .inl (free earlier member unterminated))
      fun stuck => stuck.told earlier member unterminated⟩

/-! ### Where a tolerant parser leads -/

/-- From a state of the first kind, a tolerant parse ends with a value in a state of the second
kind, or gives up in a state of the third kind. -/
def Leads (before after given : State → Prop) (parser : Parser α) : Prop :=
  ∀ source state, before state →
    match parser ⟨source, .tolerant⟩ state with
    | .ok _ last => after last
    | .error .noted last => given last
    | .error (.raised _) _ => False

variable {before between after given : State → Prop}

theorem leads_pure (value : α) : Leads after after given (pure value) :=
  fun _ _ known => known

theorem leads_bind {first : Parser α} {next : α → Parser β}
    (former : Leads before between given first)
    (latter : ∀ value, Leads between after given (next value)) :
    Leads before after given (first >>= next) := by
  intro source state known
  have start := former source state known
  rw [bind_run]
  cases outcome : first ⟨source, .tolerant⟩ state with
  | ok value later =>
    rw [outcome] at start
    exact latter value source later start
  | error halt later =>
    rw [outcome] at start
    cases halt with
    | noted => exact start
    | raised told => exact start

theorem Leads.weaken {parser : Parser α} {wide wider : State → Prop}
    (leads : Leads before after given parser) (looser : ∀ state, after state → wide state)
    (freer : ∀ state, given state → wider state) : Leads before wide wider parser := by
  intro source state known
  have start := leads source state known
  split at start
  · exact looser _ start
  · exact freer _ start
  · exact start

theorem leads_here : Leads after after given here := fun _ _ known => known

theorem leads_accept (pattern : Pattern α) :
    Leads State.Free State.Free given (accept pattern) := by
  intro source state free
  cases present : pattern.read state.cursor.rest with
  | none =>
    rw [accept_none present]
    exact free
  | some found =>
    rw [accept_some present]
    exact free

theorem leads_record (event : Event) : Leads State.Free State.Free given (record event) :=
  fun _ _ free => free

theorem leads_report (cause : Cause) (other : cause ≠ .unterminatedComment) :
    Leads State.Held State.Held given (report cause) := by
  intro source state held
  rw [report_tolerant]
  rcases held with free | stuck
  · exact .inl (free.noting other)
  · exact .inr (stuck.noting fun unterminated => absurd unterminated other)

theorem leads_fail (cause : Cause) (other : cause ≠ .unterminatedComment) :
    Leads State.Free after State.Free (fail cause : Parser α) :=
  fun _ _ free => State.Free.noting free other

theorem leads_giveUp (name : String) :
    Leads State.Held after State.Free
      (fail (.missingCloseBrace (.atRule name)) : Parser α) := by
  intro source state held
  rcases held with free | stuck
  · exact free.noting (by rintro ⟨⟩)
  · exact stuck.free

/-- Blanks do not get past a comment. -/
theorem leads_blanks : Leads State.Held State.Held given (accept .blanks) := by
  intro source state held
  rcases held with free | stuck
  · have present : Pattern.blanks.read state.cursor.rest = some ⟨_, _, _⟩ := rfl
    rw [accept_some present]
    exact .inl free
  · obtain ⟨rest, parts⟩ := stuck.ahead
    have stops : StopsAt isBlank state.cursor.rest := by
      rw [← parts]
      exact (by decide : isBlank '/' = false)
    have nothing : Pattern.blanks.Takes [] [] state.cursor.rest :=
      Pattern.takes_run.mpr ⟨rfl, List.forall_mem_nil _, stops⟩
    rw [accept_some nothing]
    exact .inr ⟨stuck.ahead, stuck.unclosed, stuck.told⟩

theorem leads_spanFrom (start : Location) :
    Leads State.Held State.Held given (spanFrom start) :=
  leads_bind leads_here fun _ => leads_bind (fun _ _ held => held) fun _ =>
    leads_bind leads_blanks fun _ => leads_pure _

theorem leads_freeSpan (start : Location) :
    Leads State.Free State.Free given (spanFrom start) :=
  leads_bind leads_here fun _ => leads_bind (fun _ _ free => free) fun _ =>
    leads_bind (leads_accept _) fun _ => leads_pure _

/-- A closing brace is ahead of free states only. -/
theorem leads_closeBrace_bind {next : Option (List Char) → Parser β}
    (missing : Leads State.Held after given (next none))
    (closed : ∀ found, Leads State.Free after given (next (some found))) :
    Leads State.Held after given (accept closeBrace >>= next) := by
  intro source state held
  cases present : closeBrace.read state.cursor.rest with
  | none =>
    rw [accept_bind_none present]
    exact missing source state held
  | some found =>
    rw [accept_bind_some present]
    rcases held with free | stuck
    · exact closed _ source _ free
    · obtain ⟨rest, parts⟩ := stuck.ahead
      rw [← parts] at present
      cases present

/-! ### Comments, declarations and blocks -/

/-- A comment is told to be unterminated where the parse is stuck at it. -/
theorem leads_tellOpen (start : Location) :
    Leads (fun state => state.Stuck ∧ start = state.cursor.location) after State.Held
      (tellOpen start) := by
  rintro source state ⟨stuck, rfl⟩
  rw [tellOpen_eq]
  by_cases told : state.openComment = some state.cursor.location
  · rw [if_pos told]
    exact .inr stuck
  · have kept : State.Stuck { state with openComment := some state.cursor.location } :=
      ⟨stuck.ahead, stuck.unclosed, stuck.told⟩
    rw [if_neg told]
    exact .inr (kept.noting fun _ => rfl)

/-- This is where a parse gets stuck. -/
theorem leads_comment : Leads State.Held State.Free State.Held comment := by
  intro source state held
  rw [comment, here_bind, startsWith_bind]
  by_cases opened : state.cursor.startsWith commentOpener = true
  · have ahead := List.isPrefixOf_iff_prefix.mp opened
    rw [if_pos opened]
    cases present : commentBody.read state.cursor.rest with
    | none =>
      rw [accept_bind_none present]
      exact leads_tellOpen _ source state ⟨held.stuck ahead present, rfl⟩
    | some body =>
      have free : state.Free := held.resolve_right fun stuck => by
        have unclosed := stuck.unclosed
        rw [present] at unclosed
        cases unclosed
      have leads : Leads State.Free State.Free State.Held
          (spanFrom state.cursor.location >>= fun span =>
            pure (some (Node.leaf (.comment (String.ofList body.value)) span))) :=
        leads_bind (leads_freeSpan _) fun _ => leads_pure _
      rw [accept_bind_some present]
      exact leads source (state.past body) free
  · rw [if_neg opened]
    refine held.resolve_right fun stuck => opened ?_
    exact List.isPrefixOf_iff_prefix.mpr stuck.ahead

theorem leads_declaration : Leads State.Free State.Free State.Free declaration := by
  refine leads_bind leads_here fun start => ?_
  refine leads_bind (leads_accept _) fun property => ?_
  cases property with
  | none => exact leads_pure none
  | some property =>
    refine leads_bind (leads_accept _) fun mark => ?_
    cases mark with
    | none => exact leads_fail _ (by rintro ⟨⟩)
    | some mark =>
      refine leads_bind (leads_accept _) fun value => ?_
      refine leads_bind (leads_freeSpan start) fun span => ?_
      exact leads_bind (leads_accept _) fun _ => leads_pure _

/-- An item is tried in free states only. -/
theorem leads_orComment {item : Parser (Option Node)}
    (leads : Leads State.Free State.Held State.Held item) :
    Leads State.Held State.Held State.Held (orComment item) := by
  refine leads_bind leads_comment fun found => ?_
  cases found with
  | some node => exact fun _ _ free => .inl free
  | none => exact leads

/-- A list gives up nothing, because it keeps what it has where an item is given up. -/
theorem leads_collect {item : Parser (Option α)}
    (leads : Leads State.Held State.Held State.Held item) :
    Leads State.Held State.Held given (collect item) := by
  intro source state held
  fun_induction collect item ⟨source, .tolerant⟩ state with
  | case1 state later outcome | case2 state later outcome | case3 state fault later outcome
  | case6 state value later outcome more =>
    have start := leads source state held
    rwa [outcome] at start
  | case4 state value later outcome less values last rest inductionHypothesis
  | case5 state value later outcome less halt last rest inductionHypothesis =>
    have start := leads source state held
    rw [outcome] at start
    have others := inductionHypothesis start
    rwa [rest] at others

theorem leads_declarations : Leads State.Held State.Held given declarations :=
  leads_collect (leads_orComment (leads_declaration.weaken (fun _ => .inl) fun _ => .inl))

/-- An at-rule is given up without its closing brace, and so its block always ends free. -/
theorem leads_atBlock (name : AtKeyword) {body : Parser (List Node)}
    (leads : Leads State.Held State.Held State.Free body) :
    Leads State.Free State.Free State.Free (atBlock name body) := by
  refine leads_bind (leads_accept _) fun opened => ?_
  cases opened with
  | none => exact leads_fail _ (by rintro ⟨⟩)
  | some mark =>
    have list : Leads State.Free State.Held State.Free body :=
      fun source state free => leads source state (.inl free)
    refine leads_bind list fun children => ?_
    exact leads_closeBrace_bind (leads_giveUp _) fun _ => leads_pure children

/-- A rule or a keyframe is kept without its closing brace, and so the parse may stay stuck. -/
theorem leads_plainBlock : Leads State.Free State.Held State.Held plainBlock := by
  refine leads_bind (leads_accept _) fun opened => ?_
  cases opened with
  | none => exact (leads_fail _ (by rintro ⟨⟩)).weaken (fun _ held => held) fun _ => .inl
  | some mark =>
    have list : Leads State.Free State.Held State.Held declarations :=
      fun source state free => leads_declarations source state (.inl free)
    refine leads_bind list fun children => ?_
    refine leads_closeBrace_bind ?_ fun _ _ _ free => .inl free
    exact leads_bind (leads_report _ (by rintro ⟨⟩)) fun _ => leads_pure children

/-! ### At-rules -/

theorem leads_keyframe : Leads State.Free State.Held State.Held keyframe := by
  refine leads_bind leads_here fun start => ?_
  refine leads_bind (leads_accept _) fun found => ?_
  cases found with
  | none => exact fun _ _ free => .inl free
  | some found =>
    refine leads_bind leads_plainBlock fun children => ?_
    exact leads_bind (leads_spanFrom start) fun span => leads_pure _

theorem leads_keyframes : Leads State.Free State.Free State.Free keyframes := by
  refine leads_bind leads_here fun start => ?_
  refine leads_bind (leads_accept _) fun vendor => ?_
  cases vendor with
  | none => exact leads_pure none
  | some vendor =>
    refine leads_bind (leads_accept _) fun name => ?_
    cases name with
    | none => exact leads_fail _ (by rintro ⟨⟩)
    | some name =>
      have list : Leads State.Held State.Held State.Free (collect (orComment keyframe)) :=
        leads_collect (leads_orComment leads_keyframe)
      refine leads_bind (leads_atBlock _ list) fun children => ?_
      exact leads_bind (leads_freeSpan start) fun span => leads_pure _

theorem leads_statement (opening : Pattern Leaf) :
    Leads State.Free State.Free State.Free (statement opening) := by
  refine leads_bind leads_here fun start => ?_
  refine leads_bind (leads_accept _) fun content => ?_
  cases content with
  | none => exact leads_pure none
  | some content => exact leads_bind (leads_freeSpan start) fun span => leads_pure _

theorem leads_conditional (name : AtKeyword) (opening : Pattern Header)
    {body : Parser (List Node)} (leads : Leads State.Held State.Held State.Free body) :
    Leads State.Free State.Free State.Free (conditional name opening body) := by
  refine leads_bind leads_here fun start => ?_
  refine leads_bind (leads_accept _) fun header => ?_
  cases header with
  | none => exact leads_pure none
  | some header =>
    refine leads_bind (leads_atBlock _ leads) fun children => ?_
    exact leads_bind (leads_freeSpan start) fun span => leads_pure _

variable {nested : Parser (List Node)}

theorem leads_atRule (leads : Leads State.Held State.Held State.Free nested) (name : AtKeyword) :
    Leads State.Free State.Free State.Free (atRule nested name) := by
  cases name with
  | keyframes => exact leads_keyframes
  | media | supports | document | host => exact leads_conditional _ _ leads
  | page | fontFace => exact leads_conditional _ _ leads_declarations
  | customMedia | importRule | charset | namespaceRule => exact leads_statement _

theorem leads_firstAtRule (leads : Leads State.Held State.Held State.Free nested)
    (names : List AtKeyword) :
    Leads State.Free State.Free State.Free (firstAtRule nested names) := by
  induction names with
  | nil => exact leads_pure none
  | cons name others inductionHypothesis =>
    refine leads_bind (leads_atRule leads name) fun found => ?_
    cases found with
    | none => exact inductionHypothesis
    | some node => exact leads_bind (leads_record _) fun _ => leads_pure _

theorem leads_attempt {parser : Parser (Option α)}
    (leads : Leads State.Free State.Free State.Free parser) :
    Leads State.Free State.Free given (attempt parser) := by
  intro source state free
  have start := leads source state free
  unfold attempt
  cases outcome : parser ⟨source, .tolerant⟩ state with
  | ok found later =>
    rw [outcome] at start
    exact start
  | error halt later =>
    rw [outcome] at start
    cases halt <;> exact start

/-! ### Rules -/

theorem leads_rule : Leads State.Free State.Held State.Held rule := by
  refine leads_bind leads_here fun start => ?_
  refine leads_bind (leads_accept _) fun text => ?_
  cases text with
  | none => exact (leads_fail _ (by rintro ⟨⟩)).weaken (fun _ held => held) fun _ => .inl
  | some text =>
    refine leads_bind leads_plainBlock fun children => ?_
    exact leads_bind (leads_spanFrom start) fun span => leads_pure _

theorem leads_ruleOrAtRule (leads : Leads State.Held State.Held State.Free nested) :
    Leads State.Free State.Held State.Held (ruleOrAtRule nested) := by
  refine leads_bind (leads_attempt (leads_firstAtRule leads _)) fun found => ?_
  cases found with
  | some node => exact fun _ _ free => .inl free
  | none => exact leads_rule

theorem leads_item (leads : Leads State.Held State.Held State.Free nested) :
    Leads State.Held State.Held State.Held (item nested) := by
  refine leads_orComment ?_
  refine leads_bind (fun _ _ free => free) fun ended => ?_
  refine leads_bind (fun _ _ free => free) fun braced => ?_
  split
  · exact fun _ _ free => .inl free
  · exact leads_ruleOrAtRule leads

theorem leads_ruleList (leads : Leads State.Held State.Held State.Free nested) :
    Leads State.Held State.Held given (ruleList nested) :=
  leads_bind leads_blanks fun _ => leads_collect (leads_item leads)

theorem leads_rulesBelow (bound : Nat) :
    Leads State.Held State.Held given (rulesBelow bound) := by
  induction bound using Nat.strongRecOn generalizing given with
  | ind bound inductionHypothesis =>
    intro source state held
    rw [rulesBelow_eq, byLeft]
    by_cases less : state.left < bound
    · rw [if_pos less]
      exact leads_ruleList (inductionHypothesis _ less) source state held
    · rw [if_neg less]
      exact held

/-- A tolerant parse ends in a free state or in a stuck one. -/
theorem leads_rules : Leads State.Held State.Held (fun _ => False) rules := by
  intro source state held
  rw [rules_eq]
  exact leads_ruleList (leads_rulesBelow _) source state held

end Grammar

open Grammar

/-! ### Stylesheets -/

/-- The nodes that a parser has read end where it has come to, or before. -/
theorem Grammar.stop_le_of_betweenAll {options : Options} {state last : State} {nodes : List Node}
    (between : BetweenAll options state last nodes) :
    ∀ node ∈ Node.preorderAll nodes, node.span.stop ≤ last.cursor.location := by
  intro node member
  obtain ⟨text, took, reads⟩ := between
  obtain ⟨before, part, after, rfl, read⟩ := reads.inside_preorderAll node member
  rw [read.span_eq, took.place, Location.after_append, Location.after_append]
  exact Location.le_after _ after

/-- A tolerant parse always ends with a stylesheet. Where it has told an unterminated comment and
has not given up an at-rule, no node goes farther than the comment. -/
theorem stop_le_of_unterminatedComment (css : String) (source : Option String) :
    ∃ sheet, parseWith css ⟨source, .tolerant⟩ = .ok sheet ∧
      ∀ fault ∈ sheet.faults, fault.cause = .unterminatedComment →
        ¬ GivesUpAt sheet.faults fault.location →
        ∀ entry ∈ sheet.nodes, entry.2.span.stop ≤ fault.location := by
  have leads := leads_rules source (begun css ⟨source, .tolerant⟩)
    (.inl fun fault absurdity => absurd absurdity List.not_mem_nil)
  rw [parseWith_eq]
  cases run : rules ⟨source, .tolerant⟩ (begun css ⟨source, .tolerant⟩) with
  | error halt last =>
    rw [run] at leads
    cases halt <;> exact leads.elim
  | ok nodes last =>
    rw [run] at leads
    have held : last.Held := leads
    refine ⟨_, rfl, fun fault member unterminated kept entry inside => ?_⟩
    rcases held with free | stuck
    · exact absurd (free fault member unterminated) kept
    · -- the parse is still where the comment was told, so it has read nothing behind it
      rw [(stuck.told fault member unterminated).resolve_left kept]
      have between := readsNodes_rules _ _ _ _ run
      exact stop_le_of_betweenAll between entry.2 (Stylesheet.mem_preorderAll inside)

/-- A rule with a declaration in front of the comment, in a block that is not closed. -/
def openBlockSheet : Stylesheet :=
  .ofRules none
    [.block (.rule ["a"]) ⟨⟨1, 1⟩, ⟨1, 7⟩, none⟩
      [.leaf (.declaration "b" "c") ⟨⟨1, 3⟩, ⟨1, 6⟩, none⟩]]
    [⟨.unterminatedComment, none, ⟨1, 7⟩⟩, ⟨.missingCloseBrace .block, none, ⟨1, 7⟩⟩]

theorem stop_le_of_unterminatedComment_openBlockSheet :
    parseWith "a\x7bb:c;/*d\x7be:f\x7d" ⟨none, .tolerant⟩ = .ok openBlockSheet ∧
      ¬ GivesUpAt openBlockSheet.faults ⟨1, 7⟩ ∧
      ∀ entry ∈ openBlockSheet.nodes, entry.2.span.stop ≤ ⟨1, 7⟩ := by
  have read : parseWith "a\x7bb:c;/*d\x7be:f\x7d" ⟨none, .tolerant⟩ = .ok openBlockSheet := by cbv
  have kept : ¬ GivesUpAt openBlockSheet.faults ⟨1, 7⟩ := by
    rintro ⟨fault, member, -, name, cause⟩
    rcases List.mem_cons.mp member with rfl | member
    · cases cause
    · rw [List.mem_singleton.mp member] at cause
      cases cause
  obtain ⟨sheet, same, stops⟩ := stop_le_of_unterminatedComment "a\x7bb:c;/*d\x7be:f\x7d" none
  rw [read] at same
  cases same
  exact ⟨read, kept, stops _ List.mem_cons_self rfl kept⟩

/-- A rule in a block of `@media` that the comment leaves open. The block is given up, and the text
of the comment is read as a rule. -/
def reopenedSheet : Stylesheet :=
  .ofRules none
    [.block (.rule ["/*c"]) ⟨⟨1, 10⟩, ⟨1, 18⟩, none⟩
      [.leaf (.declaration "d" "e") ⟨⟨1, 14⟩, ⟨1, 17⟩, none⟩]]
    [⟨.unterminatedComment, none, ⟨1, 10⟩⟩,
      ⟨.missingCloseBrace (.atRule "media"), none, ⟨1, 10⟩⟩]

/-- Where an at-rule is given up, the text behind an unterminated comment can become a node. -/
theorem not_stop_le_of_unterminatedComment :
    ¬ ∀ (css : String) (source : Option String) (sheet : Stylesheet),
      parseWith css ⟨source, .tolerant⟩ = .ok sheet →
      ∀ fault ∈ sheet.faults, fault.cause = .unterminatedComment →
        ∀ entry ∈ sheet.nodes, entry.2.span.stop ≤ fault.location := by
  intro all
  have read : parseWith "@media a\x7b/*c\x7bd:e\x7d" ⟨none, .tolerant⟩ = .ok reopenedSheet := by cbv
  have stops := all _ _ _ read _ List.mem_cons_self rfl _ List.mem_cons_self
  exact absurd stops (by decide)

end CssSyntax
