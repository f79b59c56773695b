import Mathlib.Data.Finset.Max
import Mathlib.Data.List.Infix
import LosslessEbnf.Proofs.Candidates
import LosslessEbnf.Proofs.Moments
import LosslessEbnf.Proofs.Names

/-!
# The longest match

Of the candidates for a mark the longest one that stands ahead is read, and not a character more.

## Main Definitions

* `Marks.Gapless` — where one candidate begins another one, none is missing between the two
* `Marks.Longest`, `Marks.CutOff`, `Marks.Misfit` — what can stand ahead where a mark is looked for
* `Moment.opening`, `Moment.reading` — a mark begins, and a part of a mark was read

## Main Statements

* `Marks.Sought.gapless` — what the productions look for has no gaps
* `reaches_reading_cons`, `reaches_reading_append` — characters are taken as long as some candidate
  goes on behind them
* `longest_match_of_openLiteral` — what comes of looking for a mark, whatever stands ahead

## Design Notes

While a candidate goes on, the machine holds the longest one that was read in full. Were there a gap
between the two, the characters in it would be lost when the longer candidate breaks off: they were
taken, and they belong to no mark. Without gaps what was read is a candidate itself, or nothing that
it begins with is one (`Marks.Gapless.isRead`). So all that is ever held is what was read last, and
that is the invariant of the reading (`Marks.held`).
-/

namespace LosslessEbnf

/-! ### Candidates -/

namespace Marks

/-- No candidate is empty, and where one candidate begins another one, all that lies between the two
is a candidate, too. -/
structure Gapless (candidates : List String) : Prop where
  /-- No candidate is empty. -/
  solid : ∀ mark ∈ candidates, mark ≠ ""
  /-- What begins with a candidate, and begins one, is one. -/
  closed : ∀ short ∈ candidates, ∀ long ∈ candidates, ∀ between ∈ long.toList.inits,
    short.toList <+: between → String.ofList between ∈ candidates

instance (candidates : List String) : Decidable (Gapless candidates) :=
  decidable_of_iff ((∀ mark ∈ candidates, mark ≠ "") ∧ ∀ short ∈ candidates, ∀ long ∈ candidates,
      ∀ between ∈ long.toList.inits, short.toList <+: between →
        String.ofList between ∈ candidates)
    ⟨fun h => ⟨h.1, h.2⟩, fun h => ⟨h.solid, h.closed⟩⟩

/-- The candidate is the longest one with which the text begins. -/
structure Longest (candidates : List String) (text : List Char) (mark : String) : Prop where
  /-- It is a candidate. -/
  mem : mark ∈ candidates
  /-- The text begins with it. -/
  begins : mark.toList <+: text
  /-- No other such candidate is longer. -/
  longest : ∀ other ∈ candidates, other.toList <+: text → other.length ≤ mark.length

/-- The text ends inside a candidate, behind a character of it. -/
def CutOff (candidates : List String) (text : List Char) : Prop :=
  text ≠ [] ∧ ∃ mark ∈ candidates, text <+: mark.toList ∧ text ≠ mark.toList

instance (candidates : List String) (text : List Char) : Decidable (CutOff candidates text) :=
  inferInstanceAs (Decidable (_ ∧ ∃ mark ∈ candidates, _ ∧ _))

/-- The shortest beginning of the text that begins no candidate. -/
structure Misfit (candidates : List String) (text read : List Char) : Prop where
  /-- It is not empty. -/
  nonempty : read ≠ []
  /-- The text begins with it. -/
  begins : read <+: text
  /-- No candidate begins with it. -/
  misfits : ∀ mark ∈ candidates, ¬read <+: mark.toList
  /-- Whatever is shorter begins a candidate. -/
  shortest : ∀ front, front <+: read → front ≠ read → ∃ mark ∈ candidates, front <+: mark.toList

variable {candidates : List String} {mark : String} {text read more : List Char} {c : Char}

theorem any_goesOn_iff : candidates.any (goesOn read) = true ↔
    ∃ mark ∈ candidates, read <+: mark.toList ∧ read ≠ mark.toList := by
  rw [List.any_eq_true]
  refine exists_congr fun mark => and_congr_right fun _ => ?_
  rw [goesOn, Bool.and_eq_true, decide_eq_true_eq, List.isPrefixOf_iff_prefix]
  constructor
  · rintro ⟨hlength, hbegins⟩
    exact ⟨hbegins, fun heq => Nat.ne_of_lt hlength (congrArg List.length heq)⟩
  · rintro ⟨hbegins, hne⟩
    refine ⟨Nat.lt_of_le_of_ne hbegins.length_le fun heq => ?_, hbegins⟩
    exact hne (hbegins.eq_of_length heq)

/-- A candidate goes on behind each beginning of what it goes on behind. -/
theorem any_goesOn_of_append (h : candidates.any (goesOn (read ++ more)) = true) :
    candidates.any (goesOn read) = true := by
  obtain ⟨mark, hmark, hbegins, hne⟩ := any_goesOn_iff.mp h
  refine any_goesOn_iff.mpr ⟨mark, hmark, (List.prefix_append read more).trans hbegins, ?_⟩
  rintro rfl
  exact hne (hbegins.eq_of_length_le (by simp))

/-- Without gaps all that follows a candidate is one as long as a candidate goes on. -/
theorem Gapless.isRead (h : Gapless candidates) (hread : candidates.any (isRead read) = true)
    (hgoes : candidates.any (goesOn (read ++ more)) = true) :
    candidates.any (isRead (read ++ more)) = true := by
  obtain ⟨long, hlong, hbegins, -⟩ := any_goesOn_iff.mp hgoes
  refine any_isRead_iff.mpr (h.closed _ (any_isRead_iff.mp hread) long hlong _
    ((List.mem_inits _ _).mpr hbegins) ?_)
  rw [String.toList_ofList]
  exact List.prefix_append read more

/-- Candidates none of which begins with another one have no gaps. -/
theorem Plain.gapless (h : Plain candidates) (hsolid : ∀ mark ∈ candidates, mark ≠ "") :
    Gapless candidates where
  solid := hsolid
  closed := by
    intro short hshort long hlong between hbetween hbegins
    have hends : between <+: long.toList := (List.mem_inits _ _).mp hbetween
    obtain rfl : short = long := (h short hshort).2 long hlong (hbegins.trans hends)
    obtain rfl : short.toList = between := hbegins.eq_of_length_le hends.length_le
    rwa [String.ofList_toList]

/-- What the productions look for has no gaps: where a candidate is the front of a longer one, so
are all fronts between them. -/
theorem Sought.gapless (h : Sought candidates) : Gapless candidates := by
  cases h with
  | comment | equals | terminators | separators | comma | dash | star => decide
  | quoted form => exact (plain_singleton form.mark).gapless (by simp)
  | openers b | closers b => cases b <;> decide

/-- A text that begins with a candidate begins with a longest one. -/
theorem exists_longest (h : ∃ mark ∈ candidates, mark.toList <+: text) :
    ∃ mark, Longest candidates text mark := by
  obtain ⟨mark, hmark, hbegins⟩ := h
  have hmem : mark ∈ candidates.toFinset.filter fun mark => mark.toList <+: text :=
    Finset.mem_filter.mpr ⟨List.mem_toFinset.mpr hmark, hbegins⟩
  obtain ⟨longest, hlongest, hmax⟩ := Finset.exists_max_image _ String.length ⟨mark, hmem⟩
  obtain ⟨hlongest, hbegins⟩ := Finset.mem_filter.mp hlongest
  refine ⟨longest, List.mem_toFinset.mp hlongest, hbegins, fun other hother hbegins => ?_⟩
  exact hmax other (Finset.mem_filter.mpr ⟨List.mem_toFinset.mpr hother, hbegins⟩)

/-- A text that begins with no candidate and does not end inside one begins none. -/
theorem misfits_of_not_cutOff (hne : text ≠ []) (hcut : ¬CutOff candidates text)
    (hnone : ∀ mark ∈ candidates, ¬mark.toList <+: text) :
    ∀ mark ∈ candidates, ¬text <+: mark.toList := by
  intro mark hmark hbegins
  refine hcut ⟨hne, mark, hmark, hbegins, ?_⟩
  rintro rfl
  exact hnone mark hmark List.prefix_rfl

/-- A text that begins no candidate has a shortest beginning of that kind. The empty text is not of
that kind unless there are no candidates at all. -/
theorem exists_misfit (hsome : candidates ≠ []) (hne : text ≠ [])
    (h : ∀ mark ∈ candidates, ¬text <+: mark.toList) : ∃ read, Misfit candidates text read := by
  induction text using List.reverseRecOn with
  | nil => exact absurd rfl hne
  | append_singleton front c ih =>
    by_cases hfront : front ≠ [] ∧ ∀ mark ∈ candidates, ¬front <+: mark.toList
    · obtain ⟨read, hread⟩ := ih hfront.1 hfront.2
      exact ⟨read, { hread with begins := hread.begins.trans (List.prefix_append front [c]) }⟩
    -- all but the last character begins a candidate, and so does whatever is shorter
    · refine ⟨front ++ [c], hne, List.prefix_rfl, h, fun part hpart hshorter => ?_⟩
      have hpart : part <+: front :=
        (List.prefix_concat_iff.mp hpart).resolve_left hshorter
      by_cases hnil : front = []
      · obtain rfl := List.prefix_nil.mp (hnil ▸ hpart)
        obtain ⟨mark, hmark⟩ := List.exists_mem_of_ne_nil _ hsome
        exact ⟨mark, hmark, List.nil_prefix⟩
      · push Not at hfront
        obtain ⟨mark, hmark, hbegins⟩ := hfront hnil
        exact ⟨mark, hmark, hpart.trans hbegins⟩

end Marks

/-! ### Steps of a mark -/

section

variable {sight : Sight} {candidates : List String} {read : List Char}
  {best : Option (List Char × Position)} {tree : Tree} {frames : List Frame} {node : NodeId}
  {c : Char}

theorem stepLiteral_of_goesOn (hahead : sight.ahead = some c)
    (hgoes : candidates.any (goesOn (read ++ [c])) = true) :
    stepLiteral sight tree frames node candidates read best =
      .next tree (.literal node candidates (read ++ [c])
        (if candidates.any (isRead (read ++ [c])) then some (read ++ [c], sight.here) else best) ::
          frames) := by
  unfold stepLiteral
  rw [hahead]
  exact if_pos hgoes

theorem stepLiteral_of_isRead (hahead : sight.ahead = some c)
    (hends : candidates.any (goesOn (read ++ [c])) = false)
    (hread : candidates.any (isRead (read ++ [c])) = true) :
    stepLiteral sight tree frames node candidates read best =
      .next tree (.matched node (read ++ [c]) sight.here :: frames) := by
  unfold stepLiteral
  rw [hahead]
  dsimp only
  rw [if_neg (ne_true_of_eq_false hends), if_pos hread]

theorem stepLiteral_of_misfits (hahead : sight.ahead = some c)
    (hends : candidates.any (goesOn (read ++ [c])) = false)
    (hread : candidates.any (isRead (read ++ [c])) = false) :
    stepLiteral sight tree frames node candidates read best =
      settleLiteral tree frames node best
        (.noLiteral candidates (String.ofList (read ++ [c]))) := by
  unfold stepLiteral
  rw [hahead]
  dsimp only
  rw [if_neg (ne_true_of_eq_false hends), if_neg (ne_true_of_eq_false hread)]

theorem stepLiteral_atEnd (hahead : sight.ahead = none) :
    stepLiteral sight tree frames node candidates read best =
      settleLiteral tree frames node best
        (if read.isEmpty then .noLiteral candidates "" else .endOfInput .literal) := by
  unfold stepLiteral
  rw [hahead]

end

/-! ### Reading a mark -/

/-- The candidate that is held behind what was read: just that, if it is one. -/
def Marks.held (candidates : List String) (first : Position) (read : List Char) :
    Option (List Char × Position) :=
  if candidates.any (isRead read) then some (read, first.afterAll read.tail) else none

/-- A mark begins as a child of `parent`. -/
def Moment.opening {σ : Type} (candidates : List String) (tree : Tree) (frames : List Frame)
    (parent : NodeId) (sight : Sight) (source : σ) : Moment σ :=
  ⟨sight, openLiteral sight tree frames parent candidates, source⟩

/-- The mark `node` is read; it begins at `first`, and a part of it was read. -/
def Moment.reading {σ : Type} (candidates : List String) (tree : Tree) (frames : List Frame)
    (node : NodeId) (first : Position) (read : List Char) (sight : Sight) (source : σ) : Moment σ :=
  ⟨sight, stepLiteral sight tree frames node candidates read (Marks.held candidates first read),
    source⟩

theorem Moment.reading_eq {σ : Type} {candidates : List String} {tree : Tree} {frames : List Frame}
    {node : NodeId} {first : Position} {read : List Char} {sight : Sight} {source : σ} {move : Move}
    (h : stepLiteral sight tree frames node candidates read (Marks.held candidates first read) =
      move) :
    reading candidates tree frames node first read sight source = ⟨sight, move, source⟩ := by
  rw [reading, h]

namespace Marks

variable {candidates : List String} {first : Position} {mark : String} {text read : List Char}
  {c : Char}

theorem held_of_isRead (h : candidates.any (isRead read) = true) :
    held candidates first read = some (read, first.afterAll read.tail) := if_pos h

theorem held_of_not_isRead (h : candidates.any (isRead read) = false) :
    held candidates first read = none := if_neg (ne_true_of_eq_false h)

theorem Gapless.held_nil (h : Gapless candidates) : held candidates first [] = none :=
  held_of_not_isRead (Bool.eq_false_iff.mpr fun hread => h.solid _ (any_isRead_iff.mp hread) rfl)

/-- Where a candidate goes on, nothing is held that would be lost: a candidate that was read before
is followed by one, or else it would stand in front of a gap. -/
theorem Gapless.held_concat (h : Gapless candidates)
    (hgoes : candidates.any (goesOn (read ++ [c])) = true) :
    (if candidates.any (LosslessEbnf.isRead (read ++ [c])) then
      some (read ++ [c], first.afterAll (read ++ [c]).tail) else held candidates first read) =
      held candidates first (read ++ [c]) := by
  cases hfull : candidates.any (LosslessEbnf.isRead (read ++ [c])) with
  | true => rw [if_pos rfl, held_of_isRead hfull]
  | false =>
    rw [if_neg Bool.false_ne_true, held_of_not_isRead hfull]
    refine held_of_not_isRead (Bool.eq_false_iff.mpr fun hread => ?_)
    rw [h.isRead hread hgoes] at hfull
    cases hfull

/-- Where the text begins with no candidate, nothing that it begins with is one. -/
theorem not_isRead_of_forall (hnone : ∀ mark ∈ candidates, ¬mark.toList <+: text)
    (hbegins : read <+: text) : candidates.any (isRead read) = false := by
  refine Bool.eq_false_iff.mpr fun hread => ?_
  exact hnone _ (any_isRead_iff.mp hread) (String.toList_ofList.symm ▸ hbegins)

theorem Longest.isRead (h : Longest candidates text mark) :
    candidates.any (isRead mark.toList) = true :=
  any_isRead_iff.mpr (String.ofList_toList.symm ▸ h.mem)

/-- Behind the longest candidate no other one goes on as the text does: that one would be longer, or
there would be a gap. -/
theorem Longest.misfits (h : Longest candidates (mark.toList ++ text) mark)
    (hgapless : Gapless candidates) (hc : text.head? = some c) :
    candidates.any (goesOn (mark.toList ++ [c])) = false ∧
      candidates.any (LosslessEbnf.isRead (mark.toList ++ [c])) = false := by
  obtain ⟨text, rfl⟩ := List.head?_eq_some_iff.mp hc
  have hfull : candidates.any (LosslessEbnf.isRead (mark.toList ++ [c])) = false := by
    refine Bool.eq_false_iff.mpr fun hfull => ?_
    have hbegins : mark.toList ++ [c] <+: mark.toList ++ c :: text :=
      (List.prefix_append_right_inj _).mpr (List.prefix_append [c] text)
    have hle := h.longest _ (any_isRead_iff.mp hfull) (String.toList_ofList.symm ▸ hbegins)
    rw [← String.length_toList, String.toList_ofList, List.length_append,
      String.length_toList] at hle
    exact Nat.not_succ_le_self _ hle
  refine ⟨Bool.eq_false_iff.mpr fun hgoes => ?_, hfull⟩
  rw [hgapless.isRead h.isRead hgoes] at hfull
  cases hfull

/-- In front of its last character, a candidate goes on. -/
theorem any_goesOn_of_concat (hmark : mark ∈ candidates) (hread : mark.toList = read ++ [c]) :
    candidates.any (goesOn read) = true := by
  refine any_goesOn_iff.mpr ⟨mark, hmark, hread ▸ List.prefix_append read [c], ?_⟩
  rw [hread]
  exact fun heq => List.cons_ne_nil c [] (List.self_eq_append_right.mp heq)

/-- In front of its last character, a misfit begins a candidate that goes on. -/
theorem Misfit.any_goesOn (h : Misfit candidates text (read ++ [c]))
    (hnone : ∀ mark ∈ candidates, ¬mark.toList <+: text) :
    candidates.any (goesOn read) = true := by
  have hfront : read <+: read ++ [c] := List.prefix_append read [c]
  obtain ⟨mark, hmark, hbegins⟩ := h.shortest read hfront
    fun heq => List.cons_ne_nil c [] (List.self_eq_append_right.mp heq)
  refine any_goesOn_iff.mpr ⟨mark, hmark, hbegins, fun heq => ?_⟩
  exact hnone mark hmark (heq ▸ hfront.trans h.begins)

/-- No candidate goes on behind a misfit, so the search ends there whatever follows. -/
theorem Misfit.not_goesOn (h : Misfit candidates text read) :
    candidates.any (goesOn read) = false := by
  refine Bool.eq_false_iff.mpr fun hgoes => ?_
  obtain ⟨mark, hmark, hbegins, -⟩ := any_goesOn_iff.mp hgoes
  exact h.misfits mark hmark hbegins

/-- The last character of a misfit is the one in front of which the others end. -/
theorem Misfit.head?_drop (h : Misfit candidates text read) :
    (text.drop (read.length - 1)).head? = read.getLast? := by
  obtain ⟨front, c, rfl⟩ := (List.eq_nil_or_concat' read).resolve_left h.nonempty
  obtain ⟨text, rfl⟩ := h.begins
  rw [List.length_append, List.length_singleton, Nat.add_sub_cancel, List.append_assoc,
    List.drop_left, List.getLast?_concat]
  rfl

end Marks

section

variable {σ : Type} [Source σ] {sight : Sight} {source : σ} {first : Position}
  {candidates : List String} {mark : String} {read more text : List Char} {c : Char}

/-- **Step lemma.** A character is taken if some candidate goes on behind it. -/
theorem reaches_reading_cons (limit : Nat) (tree : Tree) (frames : List Frame) (node : NodeId)
    (hgapless : Marks.Gapless candidates)
    (hgoes : candidates.any (goesOn (read ++ [c])) = true)
    (h : sight.Behind source first read (c :: text)) :
    ∃ (sight' : Sight) (source' : σ), sight'.Behind source' first (read ++ [c]) text ∧
      Moment.Reaches limit (.reading candidates tree frames node first read sight source)
        (.reading candidates tree frames node first (read ++ [c]) sight' source') := by
  have hhere : sight.here = first.afterAll (read ++ [c]).tail := h.here_eq
  have hmove : stepLiteral sight tree frames node candidates read
      (Marks.held candidates first read) = .next tree (.literal node candidates (read ++ [c])
        (Marks.held candidates first (read ++ [c])) :: frames) := by
    rw [stepLiteral_of_goesOn h.faces.ahead_eq hgoes, hhere, hgapless.held_concat hgoes]
  rw [Moment.reading_eq hmove]
  exact h.advance limit tree _

/-- **Run lemma.** A text is read as long as some candidate goes on behind it. The induction is on
the text that is still to be read. -/
theorem reaches_reading_append (limit : Nat) (tree : Tree) (frames : List Frame) (node : NodeId)
    (hgapless : Marks.Gapless candidates)
    (hgoes : more ≠ [] → candidates.any (goesOn (read ++ more)) = true)
    (h : sight.Behind source first read (more ++ text)) :
    ∃ (sight' : Sight) (source' : σ), sight'.Behind source' first (read ++ more) text ∧
      Moment.Reaches limit (.reading candidates tree frames node first read sight source)
        (.reading candidates tree frames node first (read ++ more) sight' source') := by
  induction more generalizing read sight source with
  | nil =>
    rw [List.append_nil]
    exact ⟨sight, source, h, .refl⟩
  | cons c more ih =>
    have hgoes := hgoes (List.cons_ne_nil c more)
    rw [List.append_cons] at hgoes ⊢
    obtain ⟨sight', source', hbehind, hreaches⟩ :=
      reaches_reading_cons limit tree frames node hgapless (Marks.any_goesOn_of_append hgoes) h
    obtain ⟨sight'', source'', hbehind', hreaches'⟩ := ih (fun _ => hgoes) hbehind
    exact ⟨sight'', source'', hbehind', hreaches.trans hreaches'⟩

/-- The front of a text is read if some candidate goes on behind it. -/
theorem reaches_reading (limit : Nat) (tree : Tree) (frames : List Frame) (node : NodeId)
    (hgapless : Marks.Gapless candidates)
    (hgoes : read ≠ [] → candidates.any (goesOn read) = true)
    (h : sight.Behind source first [] (read ++ text)) :
    ∃ (sight' : Sight) (source' : σ), sight'.Behind source' first read text ∧
      Moment.Reaches limit (.reading candidates tree frames node first [] sight source)
        (.reading candidates tree frames node first read sight' source') :=
  reaches_reading_append limit tree frames node hgapless hgoes h

/-! ### What comes of looking for a mark -/

/-- The longest candidate is read if a longer one goes on: that breaks off at the next character,
which is left. -/
theorem reaches_of_longest_of_goesOn (limit : Nat) (tree : Tree) (frames : List Frame)
    (node : NodeId) (hgapless : Marks.Gapless candidates)
    (hlongest : Marks.Longest candidates (mark.toList ++ text) mark)
    (hgoes : candidates.any (goesOn mark.toList) = true)
    (h : sight.Behind source first [] (mark.toList ++ text)) :
    ∃ (sight' : Sight) (source' : σ), sight'.Behind source' first mark.toList text ∧
      Moment.Reaches limit (.reading candidates tree frames node first [] sight source)
        ⟨sight', stepMatched tree frames node mark.toList (first.afterAll mark.toList.tail),
          source'⟩ := by
  obtain ⟨sight', source', hbehind, hreaches⟩ :=
    reaches_reading limit tree frames node hgapless (fun _ => hgoes) h
  have hmove : stepLiteral sight' tree frames node candidates mark.toList
      (Marks.held candidates first mark.toList) =
      stepMatched tree frames node mark.toList (first.afterAll mark.toList.tail) := by
    rw [Marks.held_of_isRead hlongest.isRead]
    cases hahead : text.head? with
    | none => exact stepLiteral_atEnd (hbehind.faces.ahead_eq.trans hahead)
    | some c =>
      obtain ⟨hends, hread⟩ := hlongest.misfits hgapless hahead
      exact stepLiteral_of_misfits (hbehind.faces.ahead_eq.trans hahead) hends hread
  rw [Moment.reading_eq hmove] at hreaches
  exact ⟨sight', source', hbehind, hreaches⟩

/-- The longest candidate is read if no longer one goes on: then the character that completes it is
the last one that is taken. -/
theorem reaches_of_longest_of_ends (limit : Nat) (tree : Tree) (frames : List Frame) (node : NodeId)
    (hgapless : Marks.Gapless candidates)
    (hlongest : Marks.Longest candidates (mark.toList ++ text) mark)
    (hends : candidates.any (goesOn mark.toList) = false)
    (h : sight.Behind source first [] (mark.toList ++ text)) :
    ∃ (sight' : Sight) (source' : σ), sight'.Behind source' first mark.toList text ∧
      Moment.Reaches limit (.reading candidates tree frames node first [] sight source)
        ⟨sight', stepMatched tree frames node mark.toList (first.afterAll mark.toList.tail),
          source'⟩ := by
  have hne : mark.toList ≠ [] :=
    fun hnil => hgapless.solid mark hlongest.mem (String.toList_eq_nil_iff.mp hnil)
  -- the candidate itself goes on behind its front; the step for its last character is another one
  obtain ⟨front, c, hmark⟩ := (List.eq_nil_or_concat' mark.toList).resolve_left hne
  have hgoes : candidates.any (goesOn front) = true := Marks.any_goesOn_of_concat hlongest.mem hmark
  have hread := hlongest.isRead
  rw [hmark] at hends hread h ⊢
  rw [List.append_assoc] at h
  obtain ⟨sight', source', hbehind, hreaches⟩ :=
    reaches_reading limit tree frames node hgapless (fun _ => hgoes) h
  have hhere : sight'.here = first.afterAll (front ++ [c]).tail := hbehind.here_eq
  have hmove : stepLiteral sight' tree frames node candidates front
      (Marks.held candidates first front) =
      .next tree (.matched node (front ++ [c]) (first.afterAll (front ++ [c]).tail) :: frames) := by
    rw [stepLiteral_of_isRead hbehind.faces.ahead_eq hends hread, hhere]
  rw [Moment.reading_eq hmove] at hreaches
  obtain ⟨sight'', source'', hbehind', hreaches'⟩ := hbehind.advance limit tree
    (.matched node (front ++ [c]) (first.afterAll (front ++ [c]).tail) :: frames)
  exact ⟨sight'', source'', hbehind', hreaches.trans hreaches'⟩

/-- The longest candidate is read, up to its last character. Until then some candidate goes on. -/
theorem reaches_of_longest (limit : Nat) (tree : Tree) (frames : List Frame) (node : NodeId)
    (hgapless : Marks.Gapless candidates)
    (hlongest : Marks.Longest candidates (mark.toList ++ text) mark)
    (h : sight.Behind source first [] (mark.toList ++ text)) :
    ∃ (sight' : Sight) (source' : σ), sight'.Behind source' first mark.toList text ∧
      Moment.Reaches limit (.reading candidates tree frames node first [] sight source)
        ⟨sight', .again ((tree.withData node mark).withLast node
          (first.afterAll mark.toList.tail)) frames, source'⟩ := by
  have hmatched : stepMatched tree frames node mark.toList (first.afterAll mark.toList.tail) =
      .again ((tree.withData node mark).withLast node (first.afterAll mark.toList.tail))
        frames := by
    rw [stepMatched, String.ofList_toList]
  rw [← hmatched]
  cases hgoes : candidates.any (goesOn mark.toList) with
  | true => exact reaches_of_longest_of_goesOn limit tree frames node hgapless hlongest hgoes h
  | false => exact reaches_of_longest_of_ends limit tree frames node hgapless hlongest hgoes h

/-- A text that ends inside a candidate is read up to its end, and the refusal says that the input
ended. -/
theorem reaches_of_cutOff (limit : Nat) (tree : Tree) (frames : List Frame) (node : NodeId)
    (hgapless : Marks.Gapless candidates) (hcut : Marks.CutOff candidates text)
    (hnone : ∀ mark ∈ candidates, ¬mark.toList <+: text) (h : sight.Behind source first [] text) :
    ∃ (sight' : Sight) (source' : σ), sight'.Behind source' first text [] ∧
      Moment.Reaches limit (.reading candidates tree frames node first [] sight source)
        ⟨sight', .reject tree (.endOfInput .literal), source'⟩ := by
  obtain ⟨hne, hgoes⟩ := hcut
  rw [← List.append_nil text] at h
  obtain ⟨sight', source', hbehind, hreaches⟩ :=
    reaches_reading limit tree frames node hgapless (fun _ => Marks.any_goesOn_iff.mpr hgoes) h
  have hmove : stepLiteral sight' tree frames node candidates text
      (Marks.held candidates first text) = .reject tree (.endOfInput .literal) := by
    rw [Marks.held_of_not_isRead (Marks.not_isRead_of_forall hnone List.prefix_rfl),
      stepLiteral_atEnd hbehind.faces.ahead_eq, settleLiteral,
      if_neg (ne_true_of_eq_false (List.isEmpty_eq_false_iff.mpr hne))]
  rw [Moment.reading_eq hmove] at hreaches
  exact ⟨sight', source', hbehind, hreaches⟩

/-- Nothing is read at the end of the input. -/
theorem reaches_of_nil (limit : Nat) (tree : Tree) (frames : List Frame) (node : NodeId)
    (hgapless : Marks.Gapless candidates) (h : sight.Behind source first [] []) :
    Moment.Reaches limit (.reading candidates tree frames node first [] sight source)
      ⟨sight, .reject tree (.noLiteral candidates (String.ofList [])), source⟩ := by
  have hmove : stepLiteral sight tree frames node candidates [] (Marks.held candidates first []) =
      .reject tree (.noLiteral candidates (String.ofList [])) := by
    rw [hgapless.held_nil, stepLiteral_atEnd h.faces.ahead_eq, settleLiteral]
    rfl
  rw [Moment.reading_eq hmove]
  exact .refl

/-- Where there are no candidates, the first character is looked at all the same. -/
theorem reaches_of_no_candidates (limit : Nat) (tree : Tree) (frames : List Frame) (node : NodeId)
    (h : sight.Behind source first [] (c :: text)) :
    Moment.Reaches limit (.reading [] tree frames node first [] sight source)
      ⟨sight, .reject tree (.noLiteral [] (String.ofList [c])), source⟩ := by
  have hmove : stepLiteral sight tree frames node [] [] (Marks.held [] first []) =
      .reject tree (.noLiteral [] (String.ofList [c])) :=
    stepLiteral_of_misfits h.faces.ahead_eq rfl rfl
  rw [Moment.reading_eq hmove]
  exact .refl

/-- A text that begins no candidate is read up to the character with which it breaks off, which is
left. -/
theorem reaches_of_misfit (limit : Nat) (tree : Tree) (frames : List Frame) (node : NodeId)
    (hgapless : Marks.Gapless candidates) (hmisfit : Marks.Misfit candidates text read)
    (hnone : ∀ mark ∈ candidates, ¬mark.toList <+: text) (h : sight.Behind source first [] text) :
    ∃ (sight' : Sight) (source' : σ),
      sight'.Behind source' first read.dropLast (text.drop (read.length - 1)) ∧
      Moment.Reaches limit (.reading candidates tree frames node first [] sight source)
        ⟨sight', .reject tree (.noLiteral candidates (String.ofList read)), source'⟩ := by
  obtain ⟨front, c, rfl⟩ := (List.eq_nil_or_concat' read).resolve_left hmisfit.nonempty
  obtain ⟨text, rfl⟩ := hmisfit.begins
  rw [List.append_assoc] at h
  obtain ⟨sight', source', hbehind, hreaches⟩ := reaches_reading limit tree frames node hgapless
    (fun _ => hmisfit.any_goesOn hnone) h
  have hfront : front <+: front ++ [c] ++ text :=
    (List.prefix_append front [c]).trans hmisfit.begins
  have hmove : stepLiteral sight' tree frames node candidates front
      (Marks.held candidates first front) =
      .reject tree (.noLiteral candidates (String.ofList (front ++ [c]))) := by
    rw [Marks.held_of_not_isRead (Marks.not_isRead_of_forall hnone hfront),
      stepLiteral_of_misfits hbehind.faces.ahead_eq hmisfit.not_goesOn
        (Marks.not_isRead_of_forall hnone hmisfit.begins), settleLiteral]
  rw [Moment.reading_eq hmove] at hreaches
  refine ⟨sight', source', ?_, hreaches⟩
  rw [List.dropLast_concat, List.length_append, List.length_singleton, Nat.add_sub_cancel,
    List.append_assoc, List.drop_left]
  exact hbehind

/-- Where no mark stands ahead, and the text does not end inside one, what was read is nothing at
the end of the input, the shortest misfit if there are candidates, and the first character if there
are none. -/
theorem reaches_of_missing (limit : Nat) (tree : Tree) (frames : List Frame) (node : NodeId)
    (hgapless : Marks.Gapless candidates) (hcut : ¬Marks.CutOff candidates text)
    (hnone : ∀ mark ∈ candidates, ¬mark.toList <+: text) (h : sight.Behind source first [] text) :
    ∃ (read : List Char) (sight' : Sight) (source' : σ), (text = [] → read = []) ∧
      (text ≠ [] → candidates ≠ [] → Marks.Misfit candidates text read) ∧
      (text ≠ [] → candidates = [] → read = text.take 1) ∧ sight'.ahead = read.getLast? ∧
      sight'.Behind source' first read.dropLast (text.drop (read.length - 1)) ∧
      Moment.Reaches limit (.reading candidates tree frames node first [] sight source)
        ⟨sight', .reject tree (.noLiteral candidates (String.ofList read)), source'⟩ := by
  cases text with
  | nil =>
    have hreaches := reaches_of_nil limit tree frames node hgapless h
    exact ⟨[], sight, source, fun _ => rfl, fun hne => absurd rfl hne, fun hne => absurd rfl hne,
      h.faces.ahead_eq, h, hreaches⟩
  | cons c text =>
    have hne : c :: text ≠ [] := List.cons_ne_nil c text
    by_cases hsome : candidates = []
    · subst hsome
      have hreaches := reaches_of_no_candidates limit tree frames node h
      exact ⟨[c], sight, source, fun heq => absurd heq hne, fun _ hsome => absurd rfl hsome,
        fun _ _ => rfl, h.faces.ahead_eq, h, hreaches⟩
    · obtain ⟨read, hmisfit⟩ :=
        Marks.exists_misfit hsome hne (Marks.misfits_of_not_cutOff hne hcut hnone)
      obtain ⟨sight', source', hbehind, hreaches⟩ :=
        reaches_of_misfit limit tree frames node hgapless hmisfit hnone h
      refine ⟨read, sight', source', fun heq => absurd heq hne, fun _ _ => hmisfit,
        fun _ heq => absurd heq hsome, ?_, hbehind, hreaches⟩
      rw [hbehind.faces.ahead_eq, hmisfit.head?_drop]

end

/-- Of a mark that begins nothing was read yet. -/
theorem Moment.opening_eq {σ : Type} {candidates : List String} {tree : Tree} {frames : List Frame}
    {sight : Sight} {source : σ} (parent : NodeId) (hgapless : Marks.Gapless candidates) :
    opening candidates tree frames parent sight source =
      reading candidates (tree.pushChild parent .literal (.point sight.here)) frames tree.size
        sight.here [] sight source := by
  rw [reading, hgapless.held_nil]
  rfl

/-- **Longest match.** What the productions look for has no gaps, and neither have the marks `/` and
`/)`. And for all candidates without gaps, wherever a mark is looked for among them: if the text
ahead begins with some candidate, the longest one becomes the data of the new node, whose span runs
from the first to the last character of it, and the machine stands right behind it. Otherwise, if
the text ends inside a candidate, the reading fails at the end of the input. Otherwise no mark is
found, what was read is the shortest beginning of the text that begins no candidate, and its last
character is still ahead. Without any candidates what was read is the first character. -/
theorem longest_match_of_openLiteral :
    ((∀ candidates, Marks.Sought candidates → Marks.Gapless candidates) ∧
      Marks.Gapless ["/", "/)"] ∧
      ∀ (σ : Type) (read : Nat → σ → Except Fault String × σ) (source : σ)
        (maxNesting fuel : Nat), ((Phase.start source).run read maxNesting fuel).Seeks) ∧
    ∀ (candidates : List String), Marks.Gapless candidates →
      ∀ (σ : Type) [Source σ] (limit : Nat) (sight : Sight) (source : σ) (tree : Tree)
        (frames : List Frame) (parent : NodeId) (text : List Char), sight.Faces source text →
        ((∃ mark ∈ candidates, mark.toList <+: text) →
          ∃ (mark : String) (sight' : Sight) (source' : σ), Marks.Longest candidates text mark ∧
            sight'.Behind source' sight.here mark.toList (text.drop mark.length) ∧
            Moment.Reaches limit (.opening candidates tree frames parent sight source)
              ⟨sight', .again (tree.pushChild parent .literal
                ⟨sight.here, sight.here.afterAll mark.toList.tail⟩ mark) frames, source'⟩) ∧
        ((¬∃ mark ∈ candidates, mark.toList <+: text) → Marks.CutOff candidates text →
          ∃ (sight' : Sight) (source' : σ), sight'.Behind source' sight.here text [] ∧
            (Moment.opening candidates tree frames parent sight source).FailsWith limit sight'
              source' (tree.pushChild parent .literal (.point sight.here))
              (.endOfInput .literal)) ∧
        ((¬∃ mark ∈ candidates, mark.toList <+: text) → ¬Marks.CutOff candidates text →
          ∃ (read : List Char) (sight' : Sight) (source' : σ),
            (text = [] → read = []) ∧
            (text ≠ [] → candidates ≠ [] → Marks.Misfit candidates text read) ∧
            (text ≠ [] → candidates = [] → read = text.take 1) ∧
            sight'.ahead = read.getLast? ∧
            sight'.Behind source' sight.here read.dropLast (text.drop (read.length - 1)) ∧
            (Moment.opening candidates tree frames parent sight source).FailsWith limit sight'
              source' (tree.pushChild parent .literal (.point sight.here))
              (.noLiteral candidates (String.ofList read))) := by
  refine ⟨⟨fun candidates hsought => hsought.gapless, by decide, ?_⟩, ?_⟩
  · intro σ read source maxNesting fuel
    exact (Phase.seeks_start source).run
  intro candidates hgapless σ _ limit sight source tree frames parent text hfaces
  rw [Moment.opening_eq parent hgapless]
  generalize hopened : tree.pushChild parent .literal (.point sight.here) = opened
  refine ⟨fun hbegins => ?_, fun hnone hcut => ?_, fun hnone hcut => ?_⟩
  · obtain ⟨mark, hlongest⟩ := Marks.exists_longest hbegins
    obtain ⟨text, rfl⟩ := hlongest.begins
    obtain ⟨sight', source', hbehind, hreaches⟩ :=
      reaches_of_longest limit opened frames tree.size hgapless hlongest hfaces.behind
    have htree : (opened.withData tree.size mark).withLast tree.size
        (sight.here.afterAll mark.toList.tail) = tree.pushChild parent .literal
          ⟨sight.here, sight.here.afterAll mark.toList.tail⟩ mark := by
      rw [← hopened, Tree.matched_pushChild]
      rfl
    rw [htree] at hreaches
    refine ⟨mark, sight', source', hlongest, ?_, hreaches⟩
    rw [← String.length_toList, List.drop_left]
    exact hbehind
  · replace hnone : ∀ mark ∈ candidates, ¬mark.toList <+: text :=
      fun mark hmark hbegins => hnone ⟨mark, hmark, hbegins⟩
    obtain ⟨sight', source', hbehind, hreaches⟩ :=
      reaches_of_cutOff limit opened frames tree.size hgapless hcut hnone hfaces.behind
    exact ⟨sight', source', hbehind, hreaches.failsWith⟩
  · replace hnone : ∀ mark ∈ candidates, ¬mark.toList <+: text :=
      fun mark hmark hbegins => hnone ⟨mark, hmark, hbegins⟩
    obtain ⟨read, sight', source', hnil, hmisfit, hfirst, hahead, hbehind, hreaches⟩ :=
      reaches_of_missing limit opened frames tree.size hgapless hcut hnone hfaces.behind
    exact ⟨read, sight', source', hnil, hmisfit, hfirst, hahead, hbehind, hreaches.failsWith⟩

/-- A closer in the place of a separator, half of an opener at the end of the input, and an opener
that breaks off. -/
theorem longest_match_of_openLiteral_slash :
    (∃ (sight' : Sight) (source' : TextSource), sight'.Behind source' ⟨1, 1⟩ ['/', ')'] ['x'] ∧
      Moment.Reaches 0
        (.opening ["/", "/)"] .empty [.grammar true] 0 ⟨some '/', ⟨1, 1⟩⟩
          (TextSource.mk [')', 'x']))
        ⟨sight', .again (Tree.empty.pushChild 0 .literal ⟨⟨1, 1⟩, ⟨1, 2⟩⟩ "/)") [.grammar true],
          source'⟩) ∧
    (∃ (sight' : Sight) (source' : TextSource), Moment.FailsWith 0
      (.opening ["(*"] .empty [.grammar true] 0 ⟨some '(', ⟨1, 1⟩⟩ (TextSource.mk []))
      sight' source' (Tree.empty.pushChild 0 .literal (.point ⟨1, 1⟩)) (.endOfInput .literal)) ∧
    ∃ (sight' : Sight) (source' : TextSource), sight'.ahead = some 'x' ∧ Moment.FailsWith 0
      (.opening ["(:", "["] .empty [.grammar true] 0 ⟨some '(', ⟨1, 1⟩⟩ (TextSource.mk ['x']))
      sight' source' (Tree.empty.pushChild 0 .literal (.point ⟨1, 1⟩))
      (.noLiteral ["(:", "["] "(x") := by
  refine ⟨?_, ?_, ?_⟩
  · obtain ⟨mark, sight', source', hlongest, hbehind, hreaches⟩ :=
      (longest_match_of_openLiteral.2 ["/", "/)"] (by decide) _ 0 ⟨some '/', ⟨1, 1⟩⟩ _ .empty
        [.grammar true] 0 _ (.ahead ⟨1, 1⟩ (delivers_textSource [')', 'x']))).1
        ⟨"/", by decide, by decide⟩
    have hlength : 2 ≤ mark.length := hlongest.longest "/)" (by decide) (by decide)
    obtain rfl : mark = "/)" := by
      rcases List.mem_cons.mp hlongest.mem with rfl | hmem
      · exact absurd hlength (by decide)
      · exact List.mem_singleton.mp hmem
    exact ⟨sight', source', hbehind, hreaches⟩
  · obtain ⟨sight', source', -, hfails⟩ :=
      (longest_match_of_openLiteral.2 ["(*"] (by decide) _ 0 ⟨some '(', ⟨1, 1⟩⟩ _ .empty
        [.grammar true] 0 _ (.ahead ⟨1, 1⟩ (delivers_textSource []))).2.1 (by decide) (by decide)
    exact ⟨sight', source', hfails⟩
  · obtain ⟨read, sight', source', -, hmisfit, -, hahead, -, hfails⟩ :=
      (longest_match_of_openLiteral.2 ["(:", "["] (by decide) _ 0 ⟨some '(', ⟨1, 1⟩⟩ _
        .empty [.grammar true] 0 _ (.ahead ⟨1, 1⟩ (delivers_textSource ['x']))).2.2
        (by decide) (by decide)
    have hmisfit := hmisfit (List.cons_ne_nil _ _) (List.cons_ne_nil _ _)
    have hread : read ∈ [[], ['('], ['(', 'x']] := (List.mem_inits _ _).mpr hmisfit.begins
    have hopener : "(:" ∈ ["(:", "["] := List.mem_cons_self
    obtain rfl : read = ['(', 'x'] := by
      simp only [List.mem_cons, List.not_mem_nil, or_false] at hread
      rcases hread with rfl | rfl | rfl
      · exact absurd rfl hmisfit.nonempty
      · exact absurd (by decide) (hmisfit.misfits _ hopener)
      · rfl
    exact ⟨sight', source', hahead, hfails⟩

end LosslessEbnf
