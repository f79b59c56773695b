import LosslessEbnf.Proofs.Limits
import LosslessEbnf.Proofs.Recognition

/-!
# Texts that ended too early

Where the input ends too early, the text can be completed: some text behind it makes it one that can
be read. It may need comments and brackets nested deeper than it was allowed to so far.

## Main Definitions

* `Inert` — a text that adds nothing to a name or an exception in front of it
* `Frame.Live` — an open production that some text completes

## Main Statements

* `Frame.exists_completes` — a live production is completed by some text
* `exists_residual` — open productions with a live one on top are completed by some text
* `exists_completion_of_endOfInput` — a text that ended too early can be completed

## Design Notes

The completion is built from the innermost production outwards, so what completes one production
stands in front of what completes the one around it. A name and an exception go on as long as they
can, so what follows them has to be inert. It is so, except behind the opening mark of a quoted
text; but above a quoted text there are only marks, which end by themselves.

All open productions are live but those that were handed a closer that they cannot end with. The
machine refuses these whatever follows, and does not report the end of the input.
-/

namespace LosslessEbnf

/-! ### Inert texts -/

/-- The text begins neither with a part of a name nor with a primary. -/
def Inert (text : List Char) : Prop :=
  text.head?.any (fun c => isNamePart c || beginsPrimary c) = false

theorem inert_nil : Inert [] := rfl

/-- A text is inert if it begins with a mark that begins no primary. -/
theorem inert_cons {c : Char} (hmark : c ∈ Marks.chars)
    (hstart : Marks.primaryStarts.contains c = false) (text : List Char) : Inert (c :: text) := by
  show (isNamePart c || beginsPrimary c) = false
  rw [Marks.isNamePart_eq_false hmark, Marks.beginsPrimary_eq hmark, hstart]
  rfl

namespace Inert

variable {text : List Char}

/-- A name ends in front of an inert text. -/
theorem ends_name (h : Inert text) : text.head?.any isNamePart = false := by
  cases text with
  | nil => rfl
  | cons c text => exact (Bool.or_eq_false_iff.mp h).1

/-- An exception ends in front of an inert text. -/
theorem ends_exception (h : Inert text) : Dialect.eager.endsException text.head? = true := by
  cases text with
  | nil => rfl
  | cons c text =>
    obtain ⟨hpart, hprimary⟩ := Bool.or_eq_false_iff.mp h
    exact Dialect.endsException_eager_some.mpr ⟨hprimary, (Bool.or_eq_false_iff.mp hpart).2⟩

end Inert

/-! ### Open productions that can be completed -/

/-- Whether some text completes the production: a closer was not handed over where it does not fit,
and a mark goes on as one of its candidates does. -/
def Frame.Live : Frame → Prop
  | .product _ _ (.body _ (some _)) => False
  | .bracket b _ (.body (some _)) => b = .repeated
  | .literal _ candidates read _ => candidates.any (goesOn read) = true
  | _ => True

/-- Some text completes the production in front of the given one. It is inert if a component other
than a mark may stand in front of it. -/
def Frame.Completable (n : Nat) (frame : Frame) (r : List Char) : Prop :=
  ∃ s, frame.Completes n s r ∧
    (frame.waiting?.isSome → ∀ component ∈ frame.components, component ≠ .mark → Inert s)

namespace Frame

variable {n : Nat} {frame : Frame} {s r : List Char}

theorem Completes.completable (h : frame.Completes n s r) (hs : Inert s) :
    frame.Completable n r :=
  ⟨s, h, fun _ _ _ _ => hs⟩

/-- Nothing but marks stands in front of what completes the production, so it is completed by them
and what follows. -/
theorem Completes.completable_of_marks (h : frame.Completes n s r)
    (hmarks : frame.waiting? = none ∨ frame.components = [.mark]) : frame.Completable n r := by
  refine ⟨s, h, fun hwaits component hcomponent hne => ?_⟩
  rcases hmarks with hnone | hmarks
  · rw [hnone] at hwaits
    cases hwaits
  · rw [hmarks] at hcomponent
    exact absurd (List.mem_singleton.mp hcomponent) hne

end Frame

/-- The last character of the closer that is put behind a bracket. -/
def Bracket.lastMark : Bracket → Char
  | repeated => '\x7d'
  | optional => ']'
  | grouped => ')'

/-- One of the closers is a single character, so a bracket can be closed whatever was read in
front. -/
theorem Bracket.exists_closer (b : Bracket) :
    ∃ closer ∈ b.allClosers, closer.toList = [b.lastMark] := by
  cases b with
  | repeated => exact ⟨"\x7d", by decide, by decide⟩
  | optional => exact ⟨"]", by decide, by decide⟩
  | grouped => exact ⟨")", by decide, by decide⟩

theorem Bracket.inert_lastMark (b : Bracket) (r : List Char) : Inert (b.lastMark :: r) := by
  cases b <;> exact inert_cons (by decide) (by decide) r

section

variable {n : Nat} {r : List Char}

/-- No text at all is a list of definitions, namely one with an empty definition. -/
theorem Derives.definitions_nil : Derives .eager .definitions n r r :=
  .definitions_last (.definition_empty blank_nil)

/-- Nothing but the closer has to stand in a bracket, since its definitions may be empty. -/
theorem bracketBody_lastMark (b : Bracket) : BracketBody b n (b.lastMark :: r) r := by
  obtain ⟨closer, hmem, hcloser⟩ := b.exists_closer
  refine ⟨[], b.lastMark :: r, closer, rfl, blank_nil, ?_, hmem⟩
  rw [hcloser]
  exact .definitions_nil

/-- An opener, a list without terms and a closer are a primary. -/
theorem primary_roundOpener (hn : 0 < n) (b : Bracket) :
    Derives .eager .primary n (b.roundOpener.toList ++ b.lastMark :: r) r := by
  have hbody : BracketBody b (n - (0 + 1)) (b.lastMark :: r) r := bracketBody_lastMark b
  have hlimit : ¬n ≤ 0 := Nat.not_le_of_gt hn
  have h := hbody.primary_within hlimit b.roundOpener_mem fun hb => by
    subst hb
    exact ⟨show some ')' ≠ some '/' by decide, show some ')' ≠ some ':' by decide⟩
  rwa [Nat.sub_zero] at h

theorem productBody_semicolon : ProductBody n (';' :: r) r :=
  ⟨[], ';' :: r, ';', rfl, blank_nil, .definitions_nil, Or.inl rfl⟩

/-! ### Productions one by one -/

theorem completable_comment (hn : 0 < n) (id : NodeId) (text : Option NodeId)
    (stage : CommentStage) : (Frame.comment id text stage).Completable n r := by
  cases stage with
  | body =>
    have h : (Frame.comment id text .body).Completes n ('*' :: ')' :: r) r := .comment_end
    exact h.completable (inert_cons (by decide) (by decide) _)
  | mark c here =>
    -- a blank keeps what was held back from becoming a mark
    have hblank : ∀ a b : Char, b ≠ ' ' → ¬[a, b] <+: c :: ' ' :: '*' :: ')' :: r := by
      intro a b hb h
      exact hb (List.cons_prefix_cons.mp (List.cons_prefix_cons.mp h).2).1
    have hrest : Derives .eager .commentRest n (' ' :: '*' :: ')' :: r) r :=
      .comment_char (by simp) (by simp) .comment_end
    have h : (Frame.comment id text (.mark c here)).Completes n (' ' :: '*' :: ')' :: r) r :=
      .comment_char (hblank '*' ')' (by decide)) (hblank '(' '*' (by decide)) hrest
    exact h.completable_of_marks (Or.inl (by cases text <;> rfl))
  | opened opener =>
    obtain ⟨k, rfl⟩ : ∃ k, n = k + 1 := ⟨n - 1, by omega⟩
    have h : (Frame.comment id text (.opened opener)).Completes (k + 1)
        ('*' :: ')' :: '*' :: ')' :: r) r :=
      .comment_nested (.comment .comment_end) .comment_end
    exact h.completable (inert_cons (by decide) (by decide) _)

theorem completable_product {id lhs : NodeId} {stage : ProductStage}
    (hlive : (Frame.product id lhs stage).Live) :
    (Frame.product id lhs stage).Completable n r := by
  match stage with
  | .name =>
    have h : (Frame.product id lhs .name).Completes n ('=' :: ';' :: r) r :=
      ⟨';' :: r, rfl, productBody_semicolon⟩
    exact h.completable (inert_cons (by decide) (by decide) _)
  | .equals =>
    have h : (Frame.product id lhs .equals).Completes n (';' :: r) r := productBody_semicolon
    exact h.completable (inert_cons (by decide) (by decide) _)
  | .body list none =>
    have h : (Frame.product id lhs (.body list none)).Completes n (';' :: r) r := Or.inl rfl
    exact h.completable (inert_cons (by decide) (by decide) _)
  | .body list (some closer) => exact hlive.elim

theorem completable_definitions (id : NodeId) (stage : ListStage) (hr : Inert r) :
    (Frame.definitions id stage).Completable n r := by
  cases stage with
  | start =>
    have h : (Frame.definitions id .start).Completes n r r := .definitions_nil
    exact h.completable hr
  | afterDefinition =>
    have h : (Frame.definitions id .afterDefinition).Completes n r r := Or.inl rfl
    exact h.completable hr
  | afterSlash slash =>
    -- a blank makes the `/` a separator, which an empty definition may follow
    have h : (Frame.definitions id (.afterSlash slash)).Completes n (' ' :: r) r := by
      refine Or.inr ⟨'/', ' ' :: r, rfl, Or.inr (Or.inr ⟨rfl, ?_⟩), ?_⟩
      · show some ' ' ≠ some ')'
        decide
      · exact Derives.definitions_space (by decide) .definitions_nil
    exact h.completable_of_marks (Or.inl rfl)

theorem completable_definition (id : NodeId) (start : Position) (term : Option NodeId)
    (hr : Inert r) : (Frame.definition id start term).Completable n r := by
  cases term with
  | none =>
    have h : (Frame.definition id start none).Completes n r r := .definition_empty blank_nil
    exact h.completable hr
  | some term =>
    have h : (Frame.definition id start (some term)).Completes n r r :=
      ⟨[], r, rfl, blank_nil, Or.inl rfl⟩
    exact h.completable hr

theorem completable_term (id : NodeId) (parts : TermParts) (dash : Bool) (hr : Inert r) :
    (Frame.term id parts dash).Completable n r := by
  cases dash with
  | false =>
    have h : (Frame.term id parts false).Completes n r r := .components_end
    exact h.completable hr
  | true =>
    have h : (Frame.term id parts true).Completes n r r :=
      ⟨r, .exception_empty blank_nil hr.ends_exception, .components_end⟩
    exact h.completable hr

theorem completable_exception (id term : NodeId) (primary : Option NodeId) (hr : Inert r) :
    (Frame.exception id term primary).Completable n r := by
  cases primary with
  | none =>
    have h : (Frame.exception id term none).Completes n r r :=
      .exception_empty blank_nil hr.ends_exception
    exact h.completable hr
  | some primary =>
    have h : (Frame.exception id term (some primary)).Completes n r r :=
      ⟨[], rfl, blank_nil, hr.ends_exception⟩
    exact h.completable hr

theorem completable_bracket {b : Bracket} {id : NodeId} {stage : BracketStage}
    (hlive : (Frame.bracket b id stage).Live) (hr : Inert r) :
    (Frame.bracket b id stage).Completable n r := by
  match stage with
  | .opened opening =>
    have h : (Frame.bracket b id (.opened opening)).Completes n (b.lastMark :: r) r :=
      bracketBody_lastMark b
    exact h.completable (b.inert_lastMark r)
  | .body none =>
    obtain ⟨closer, hmem, hcloser⟩ := b.exists_closer
    have h : (Frame.bracket b id (.body none)).Completes n (b.lastMark :: r) r :=
      ⟨closer, hmem, by rw [hcloser]; rfl⟩
    exact h.completable (b.inert_lastMark r)
  | .body (some closer) =>
    have h : (Frame.bracket b id (.body (some closer))).Completes n r r := ⟨hlive, rfl⟩
    exact h.completable hr

/-- What is left of a candidate that goes on completes the mark. -/
theorem completable_literal {id : NodeId} {candidates : List String} {read : List Char}
    {best : Option (List Char × Position)}
    (hlive : (Frame.literal id candidates read best).Live) :
    (Frame.literal id candidates read best).Completable n r := by
  obtain ⟨mark, hmark, hgoes⟩ := List.any_eq_true.mp hlive
  obtain ⟨more, hmore⟩ := List.isPrefixOf_iff_prefix.mp (Bool.and_eq_true_iff.mp hgoes).2
  have h : (Frame.literal id candidates read best).Completes n (more ++ r) r :=
    ⟨mark, hmark, by rw [← hmore, List.append_assoc]⟩
  exact h.completable_of_marks (Or.inl rfl)

end

/-- A live production is completed by some text in front of an inert one. A mark does not ask for
what stands behind it. -/
theorem Frame.exists_completes {n : Nat} (hn : 0 < n) {frame : Frame} {r : List Char}
    (hlive : frame.Live) (htext : frame.component ≠ .text)
    (hr : frame.component ≠ .mark → Inert r) : frame.Completable n r := by
  cases frame with
  | grammar begun => exact absurd rfl htext
  | comment id text stage => exact completable_comment hn id text stage
  | product id lhs stage => exact completable_product hlive
  | definitions id stage => exact completable_definitions id stage (hr nofun)
  | definition id start term => exact completable_definition id start term (hr nofun)
  | term id parts dash => exact completable_term id parts dash (hr nofun)
  | exception id term primary => exact completable_exception id term primary (hr nofun)
  | repetition id =>
    have h : (Frame.repetition id).Completes n ('*' :: r) r := ⟨[], rfl, blank_nil⟩
    exact h.completable (inert_cons (by decide) (by decide) r)
  | paren parent start =>
    have h : (Frame.paren parent start).Completes n (Bracket.grouped.lastMark :: r) r :=
      primary_roundOpener hn .grouped
    exact h.completable (Bracket.inert_lastMark _ r)
  | opener b parent opener =>
    have h : (Frame.opener b parent opener).Completes n (b.lastMark :: r) r :=
      fun _ => primary_roundOpener hn b
    exact h.completable (b.inert_lastMark r)
  | bracket b id stage => exact completable_bracket hlive (hr nofun)
  | quoted form id text =>
    have h : (Frame.quoted form id text).Completes n (form.mark :: r) r :=
      ⟨[], rfl, List.forall_mem_nil _⟩
    exact h.completable_of_marks (Or.inr rfl)
  | identifier id parent trailing =>
    have hinert := hr nofun
    have h : (Frame.identifier id parent trailing).Completes n r r :=
      ⟨[], rfl, List.forall_mem_nil _, hinert.ends_name⟩
    exact h.completable hinert
  | run run id =>
    have h : (Frame.run run id).Completes n r r := ⟨[], rfl, List.forall_mem_nil _⟩
    exact h.completable_of_marks (Or.inl rfl)
  | literal id candidates read best => exact completable_literal hlive
  | matched id text last =>
    have h : (Frame.matched id text last).Completes n r r := rfl
    exact h.completable_of_marks (Or.inl rfl)
  | closing id =>
    have h : (Frame.closing id).Completes n r r := rfl
    exact h.completable (hr nofun)

/-! ### Stacks of open productions -/

/-- A production that waits for a component is live: there is a text that completes it. -/
theorem Frame.live_of_waiting {frame : Frame} (h : frame.waiting?.isSome) : frame.Live := by
  unfold Live
  split
  · cases h
  · cases h
  · cases h
  · trivial

/-- Open productions with a live one on top are completed by some text, if the limit leaves room for
one more comment or bracket. -/
theorem exists_residual {limit : Nat} {frame : Frame} {below : List Frame}
    (h : Nested (frame :: below)) (hlive : frame.Live)
    (hlimit : nesting (frame :: below) < limit) :
    ∃ s, Residual limit (frame :: below) s ∧
      (frame.waiting?.isSome → ∀ component ∈ frame.components, component ≠ .mark → Inert s) := by
  induction below generalizing frame with
  | nil =>
    cases h with
    | grammar begun => exact ⟨[], ⟨[], .text_end, rfl⟩, fun _ _ _ _ => inert_nil⟩
  | cons host below ih =>
    cases h with
    | cons rest waits admitted =>
      have hless : nesting (host :: below) < limit := by
        refine Nat.lt_of_le_of_lt ?_ hlimit
        rw [nesting, nesting, List.countP_cons (l := host :: below)]
        exact Nat.le_add_right ..
      obtain ⟨r, hr, hinert⟩ := ih rest (Frame.live_of_waiting waits) hless
      have htext : frame.component ≠ .text := fun htext =>
        Frame.text_not_mem_components (htext ▸ admitted)
      have hroom : 0 < limit - nesting (frame :: host :: below) := by omega
      obtain ⟨s, hs, hs'⟩ := Frame.exists_completes hroom hlive htext (hinert waits _ admitted)
      exact ⟨s, ⟨r, hs, hr⟩, hs'⟩

/-! ### The end of the input -/

/-- A production on top that is not live is refused, but not because the input ends. -/
theorem live_of_settle_atEnd {sure : Prop} {whole done : List Char} {limit : Nat} {here : Position}
    {tree tree' : Tree} {frame : Frame} {below : List Frame} {reading : Unfinished}
    (h : Standing sure whole done tree (frame :: below))
    (hrefused : settle limit ⟨none, here⟩ tree (frame :: below) =
      .rejected tree' (.endOfInput reading)) : frame.Live := by
  rw [settle_eq] at hrefused
  unfold Frame.Live
  split
  · cases hrefused
  · rename_i b id closer
    by_cases hb : b = .repeated
    · exact hb
    · rw [step, stepBracket, if_neg hb] at hrefused
      cases hrefused
  · cases h with
    | idle rest => cases rest.waiting.id_eq_size
    | literal _ _ _ _ _ goes => exact goes
  · trivial

/-- A text that ended too early leaves open productions that some text completes, for what cannot be
completed is refused at a character. -/
theorem residual_of_endOfInput {limit : Nat} {config : Config} {whole text : List Char}
    {error : ParseError} {reading : Unfinished} (h : config.Between whole)
    (hrun : runText limit config text = .error error) (hcause : error.cause = .endOfInput reading) :
    ∃ more limit', limit ≤ limit' ∧ Residual limit' config.frames (text ++ more) := by
  induction text generalizing config whole with
  | nil =>
    rw [runText_nil, finish] at hrun
    split at hrun
    · cases hrun
    · cases hrun
    · rename_i tree cause hsettle
      cases hrun
      obtain rfl : cause = .endOfInput reading := hcause
      have hnested := h.standing.nested
      cases hframes : config.frames with
      | nil =>
        rw [hframes] at hnested
        cases hnested
      | cons frame below =>
        rw [hframes] at hnested hsettle
        have hlive := live_of_settle_atEnd (hframes ▸ h.standing) hsettle
        have hroom : nesting (frame :: below) < limit + nesting (frame :: below) + 1 := by omega
        obtain ⟨more, hmore, -⟩ := exists_residual hnested hlive hroom
        exact ⟨more, _, by omega, hmore⟩
  | cons c text ih =>
    have hkeeps := h.keeps_settle limit c
    rw [runText_cons] at hrun
    split at hrun
    · rename_i tree frames hsettle
      rw [hsettle] at hkeeps
      obtain ⟨more, limit', hle, hmore⟩ := ih (h.next hkeeps) hrun
      -- the larger limit leads to the same productions, and what completes these completes those
      -- before
      have hhead : (c :: (text ++ more)).head? =
        (Sight.mk (some c) (config.position.after c)).ahead := rfl
      have hsound := sound_settle limit' (h.reads_some c) (fun _ => rfl) hhead
        (h.standing.weaken id [c])
      rw [settle_eq_waiting_of_le hle hsettle] at hsound
      exact ⟨more, limit', hle, hsound hmore⟩
    · cases hrun
    · rename_i tree cause hsettle
      rw [hsettle] at hkeeps
      cases hrun
      -- the end of the input is not reported where there is a next character
      obtain ⟨read, -, -, hexplains⟩ := hkeeps
      rw [show cause = .endOfInput reading from hcause] at hexplains
      cases hexplains.1

/-- **Completion.** A text whose reading failed because the input ended can be completed: with some
text behind it, and a limit that may have to be larger, it can be read. -/
theorem exists_completion_of_endOfInput {text : String} {limit : Nat} {error : ParseError}
    {reading : Unfinished} (herror : parseText text limit = .error error)
    (hcause : error.cause = .endOfInput reading) :
    ∃ more limit', limit ≤ limit' ∧ (parseText (text ++ more) limit').isOk = true := by
  rw [parseText_eq] at herror
  obtain ⟨more, limit', hle, r, hderives, hr⟩ :=
    residual_of_endOfInput Config.Between.initial herror hcause
  obtain rfl : r = [] := hr
  refine ⟨String.ofList more, limit', hle, ?_⟩
  rw [parseText_eq, String.toList_append, String.toList_ofList]
  exact acceptsFrom_of_derives hderives .empty .start

/-- The cause of a failure. -/
def failure? (result : Except ParseError Tree) : Option Cause :=
  match result with
  | .ok _ => none
  | .error error => some error.cause

theorem exists_error_of_failure? {result : Except ParseError Tree} {cause : Cause}
    (h : failure? result = some cause) : ∃ error, result = .error error ∧ error.cause = cause := by
  cases result with
  | ok tree => cases h
  | error error => exact ⟨error, rfl, Option.some.inj h⟩

/-- A group and a comment that are not closed; the group is only let in with a larger limit. -/
theorem exists_completion_of_endOfInput_open :
    (∃ error, parseText "x=(" 0 = .error error ∧ error.cause = .endOfInput .primary ∧
      ∃ more limit', 0 ≤ limit' ∧ (parseText ("x=(" ++ more) limit').isOk = true) ∧
    ∃ error, parseText "(* a *" 1 = .error error ∧ error.cause = .endOfInput .comment ∧
      ∃ more limit', 1 ≤ limit' ∧ (parseText ("(* a *" ++ more) limit').isOk = true := by
  constructor
  · obtain ⟨error, herror, hcause⟩ := exists_error_of_failure?
      (show failure? (parseText "x=(" 0) = some (.endOfInput .primary) by
        with_unfolding_all decide)
    exact ⟨error, herror, hcause, exists_completion_of_endOfInput herror hcause⟩
  · obtain ⟨error, herror, hcause⟩ := exists_error_of_failure?
      (show failure? (parseText "(* a *" 1) = some (.endOfInput .comment) by
        with_unfolding_all decide)
    exact ⟨error, herror, hcause, exists_completion_of_endOfInput herror hcause⟩

end LosslessEbnf
