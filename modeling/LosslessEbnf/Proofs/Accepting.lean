import LosslessEbnf.Machine.Run
import LosslessEbnf.Proofs.Leaves

/-!
# Texts that are accepted

Which texts the machine accepts from given open productions, and how it gets over leaves and white
space on its way.

## Main Definitions

* `RunsTo` — every run with a tree and some open productions has a result of a kind
* `AcceptsFrom` — every run with some open productions accepts a text
* `Move.RunsTo`, `Move.Leads` — the same of what is left after a move
* `skipSpace` — a text without the white space in front

## Main Statements

* `runsTo_of_step`, `acceptsFrom_of_step` — a result is known if a single step leads there
* `leads_openLiteral` — a mark is read in full
* `acceptsFrom_of_skipSpace` — white space is read where a run of it may begin

## Design Notes

The tree has no say in what is accepted, so all statements are about every tree. What follows is
handed on: a production is read if whatever is accepted without it is accepted behind its text.
-/

namespace LosslessEbnf

/-- Every run with this tree and these open productions has a result of which `Q` holds. -/
def RunsTo (limit : Nat) (Q : Except ParseError Tree → Prop) (tree : Tree) (frames : List Frame)
    (text : List Char) : Prop :=
  ∀ position, Q (runText limit ⟨tree, frames, position⟩ text)

/-- Every run that is left after the move has a result of which `Q` holds. -/
def Move.RunsTo (limit : Nat) (Q : Except ParseError Tree → Prop) (text : List Char) :
    Move → Prop
  | again tree frames => LosslessEbnf.RunsTo limit Q tree frames text
  | next tree frames => LosslessEbnf.RunsTo limit Q tree frames text.tail
  | accept tree => Q (.ok tree)
  | reject tree cause => ∀ here, Q (.error ⟨cause, here, tree⟩)

/-- Every run with these open productions accepts the text. -/
def AcceptsFrom (limit : Nat) (frames : List Frame) (text : List Char) : Prop :=
  ∀ tree position, (runText limit ⟨tree, frames, position⟩ text).isOk = true

/-- What is left of the text after the move is accepted. -/
def Move.Leads (limit : Nat) (text : List Char) : Move → Prop
  | again _ frames => AcceptsFrom limit frames text
  | next _ frames => AcceptsFrom limit frames text.tail
  | accept _ => True
  | reject _ _ => False

section

variable {limit : Nat} {frame : Frame} {frames below : List Frame} {here : Position} {tree : Tree}
  {c : Char} {text r : List Char}

/-- The result is known if it is known behind a single step, whether that leaves the character,
takes it or decides. -/
theorem runsTo_of_step {Q : Except ParseError Tree → Prop}
    (h : ∀ here, (step limit ⟨text.head?, here⟩ tree frames).RunsTo limit Q text) :
    RunsTo limit Q tree frames text := by
  intro position
  cases text with
  | nil =>
    have hmove := h position
    rw [List.head?_nil] at hmove
    rw [runText_nil, finish, settle_eq]
    cases hstep : step limit ⟨none, position⟩ tree frames with
    | again tree' frames' =>
      rw [hstep] at hmove
      exact hmove position
    | next tree' frames' => exact absurd hstep step_ne_next
    | accept tree' =>
      rw [hstep] at hmove
      exact hmove
    | reject tree' cause =>
      rw [hstep] at hmove
      exact hmove position
  | cons c text =>
    have hmove := h (position.after c)
    rw [List.head?_cons] at hmove
    rw [runText_cons, settle_eq]
    cases hstep : step limit ⟨some c, position.after c⟩ tree frames with
    | again tree' frames' =>
      rw [hstep] at hmove
      exact hmove position
    | next tree' frames' =>
      rw [hstep] at hmove
      exact hmove (position.after c)
    | accept tree' =>
      rw [hstep] at hmove
      exact hmove
    | reject tree' cause =>
      rw [hstep] at hmove
      exact hmove (position.after c)

/-- A text is accepted if a single step leads to what is accepted. -/
theorem acceptsFrom_of_step
    (h : ∀ here tree, (step limit ⟨text.head?, here⟩ tree frames).Leads limit text) :
    AcceptsFrom limit frames text := by
  intro tree
  refine runsTo_of_step (Q := fun result => result.isOk = true) fun here => ?_
  have hleads := h here tree
  cases hstep : step limit ⟨text.head?, here⟩ tree frames with
  | again tree' frames' | next tree' frames' =>
    rw [hstep] at hleads
    exact hleads tree'
  | accept tree' => rfl
  | reject tree' cause =>
    rw [hstep] at hleads
    exact hleads.elim

/-! ### Marks -/

/-- No candidate goes on where another one was read in full. -/
theorem Marks.Plain.not_goesOn {candidates : List String} {mark : String}
    (h : Marks.Plain candidates) (hmark : mark ∈ candidates) :
    candidates.any (goesOn mark.toList) = false := by
  rw [List.any_eq_false]
  intro other hother hgoes
  rw [goesOn, Bool.and_eq_true, decide_eq_true_eq] at hgoes
  have heq := (h mark hmark).2 other hother (List.isPrefixOf_iff_prefix.mp hgoes.2)
  rw [heq] at hgoes
  exact Nat.lt_irrefl _ hgoes.1

theorem acceptsFrom_matched {id : NodeId} {read : List Char} {last : Position}
    (h : AcceptsFrom limit below r) : AcceptsFrom limit (.matched id read last :: below) r :=
  acceptsFrom_of_step fun _ _ => h

theorem acceptsFrom_closing {id : NodeId} (h : AcceptsFrom limit below r) :
    AcceptsFrom limit (.closing id :: below) r :=
  acceptsFrom_of_step fun _ _ => h

/-- A mark of which something was read is read up to its end, and the text behind it is then for the
productions below. -/
theorem leads_stepLiteral {id : NodeId} {candidates : List String} {read more : List Char}
    {best : Option (List Char × Position)} {mark : String} (hplain : Marks.Plain candidates)
    (hmark : mark ∈ candidates) (hread : mark.toList = read ++ c :: more)
    (h : AcceptsFrom limit below r) :
    (stepLiteral ⟨some c, here⟩ tree below id candidates read best).Leads limit
      (c :: (more ++ r)) := by
  unfold stepLiteral
  dsimp only
  induction more generalizing read c best here tree with
  | nil =>
    have hfull : candidates.any (isRead (read ++ [c])) = true :=
      List.any_eq_true.mpr ⟨mark, hmark, beq_iff_eq.mpr hread⟩
    rw [← hread] at hfull ⊢
    rw [if_neg (ne_true_of_eq_false (hplain.not_goesOn hmark)), if_pos hfull]
    exact acceptsFrom_matched h
  | cons d more ih =>
    have hread' : mark.toList = read ++ [c] ++ d :: more := by
      rw [hread, List.append_assoc]
      rfl
    have hgoes : candidates.any (goesOn (read ++ [c])) = true := by
      refine List.any_eq_true.mpr ⟨mark, hmark, ?_⟩
      rw [goesOn, hread', Bool.and_eq_true, decide_eq_true_eq, List.isPrefixOf_iff_prefix]
      exact ⟨by simp, List.prefix_append ..⟩
    rw [if_pos hgoes]
    exact acceptsFrom_of_step fun here tree => ih hread'

/-- A mark is read in full if it stands in the text, and none of the candidates goes on behind
it. -/
theorem leads_openLiteral {parent : NodeId} {candidates : List String} {mark : String}
    {more : List Char} (hplain : Marks.Plain candidates) (hmark : mark ∈ candidates)
    (hread : mark.toList = c :: more) (h : AcceptsFrom limit frames r) :
    (openLiteral ⟨some c, here⟩ tree frames parent candidates).Leads limit (c :: (more ++ r)) :=
  leads_stepLiteral hplain hmark hread h

/-- A mark of one character is read if that is the next one. No other candidate needs to be
considered. -/
theorem leads_openLiteral_single {parent : NodeId} {candidates : List String} {mark : String}
    (hplain : Marks.Plain candidates) (hmark : mark ∈ candidates) (hread : mark.toList = [c])
    (h : AcceptsFrom limit frames r) :
    (openLiteral ⟨some c, here⟩ tree frames parent candidates).Leads limit (c :: r) :=
  leads_openLiteral hplain hmark hread h

/-! ### Runs and names -/

/-- A run is read up to a character that does not belong to it. The induction is on the characters
that do. -/
theorem acceptsFrom_run {run : Run} {id : NodeId} {front : List Char}
    (hfront : ∀ x ∈ front, run.holds x = true) (hends : r.head?.any run.holds = false)
    (h : AcceptsFrom limit below r) : AcceptsFrom limit (.run run id :: below) (front ++ r) := by
  refine acceptsFrom_of_step fun here tree => ?_
  show (stepRun _ _ _ _ _).Leads limit _
  induction front generalizing here tree with
  | nil =>
    unfold stepRun
    rw [List.nil_append]
    cases hr : r.head? with
    | none => exact h
    | some c =>
      rw [hr] at hends
      dsimp only
      rw [if_neg (by rw [show run.holds c = false from hends]; exact Bool.false_ne_true)]
      exact h
  | cons c front ih =>
    obtain ⟨hc, hfront⟩ := List.forall_mem_cons.mp hfront
    unfold stepRun
    rw [List.cons_append, List.head?_cons]
    dsimp only
    rw [if_pos hc]
    exact acceptsFrom_of_step fun here tree => ih hfront here tree

/-- A name is read up to a character that does not belong to it. The induction is on the characters
that do. -/
theorem acceptsFrom_identifier {id parent : NodeId} {trailing : Option Span} {name : List Char}
    (hname : ∀ x ∈ name, isNamePart x = true) (hends : r.head?.any isNamePart = false)
    (h : AcceptsFrom limit below r) :
    AcceptsFrom limit (.identifier id parent trailing :: below) (name ++ r) := by
  induction name generalizing trailing with
  | nil =>
    refine acceptsFrom_of_step fun here tree => ?_
    show (stepIdentifier _ _ _ _ _ _).Leads limit _
    rw [List.nil_append, stepIdentifier_eq_atEnd]
    · cases trailing <;> exact h
    · intro c hc
      rw [show r.head? = some c from hc] at hends
      exact hends
  | cons c name ih =>
    obtain ⟨hc, hname⟩ := List.forall_mem_cons.mp hname
    refine acceptsFrom_of_step fun here tree => ?_
    rw [List.cons_append, List.head?_cons, step]
    unfold stepIdentifier
    dsimp only
    rw [if_pos hc]
    split <;> exact ih hname

/-- A text between marks is read up to the second mark, whatever stands between them but that
mark. -/
theorem acceptsFrom_quoted {form : Quoted} {id run : NodeId} {inner : List Char}
    (hinner : ∀ x ∈ inner, x ≠ form.mark) (h : AcceptsFrom limit below r) :
    AcceptsFrom limit (.quoted form id (some run) :: below) (inner ++ form.mark :: r) := by
  induction inner with
  | nil =>
    refine acceptsFrom_of_step fun here tree => ?_
    rw [List.nil_append, List.head?_cons, step, stepQuoted]
    dsimp only
    rw [if_pos rfl]
    exact leads_openLiteral_single (Marks.plain_singleton _) List.mem_cons_self
      (String.toList_singleton _) (acceptsFrom_closing h)
  | cons c inner ih =>
    obtain ⟨hc, hinner⟩ := List.forall_mem_cons.mp hinner
    refine acceptsFrom_of_step fun here tree => ?_
    rw [List.cons_append, List.head?_cons, step, stepQuoted]
    dsimp only
    rw [if_neg hc]
    exact ih hinner

/-! ### White space -/

/-- The text without the white space in front. -/
def skipSpace (text : List Char) : List Char := text.dropWhile isSpace

theorem skipSpace_cons_of_pos (hc : isSpace c = true) : skipSpace (c :: text) = skipSpace text :=
  List.dropWhile_cons_of_pos hc

theorem skipSpace_cons_of_neg (hc : isSpace c = false) : skipSpace (c :: text) = c :: text :=
  List.dropWhile_cons_of_neg (by rw [hc]; exact Bool.false_ne_true)

/-- White space in front of a text is skipped along with the one that the text begins with. -/
theorem skipSpace_append {blank : List Char} (hblank : ∀ x ∈ blank, isSpace x = true) :
    skipSpace (blank ++ text) = skipSpace text :=
  List.dropWhile_append_of_pos hblank

theorem any_isSpace_skipSpace : (skipSpace text).head?.any isSpace = false := by
  induction text with
  | nil => rfl
  | cons c text ih =>
    cases hc : isSpace c with
    | true => rw [skipSpace_cons_of_pos hc, ih]
    | false => rw [skipSpace_cons_of_neg hc, List.head?_cons, Option.any_some, hc]

/-- Whether a run of white space may begin right above the production. -/
def Frame.admitsSpace (frame : Frame) : Bool :=
  frame.waiting?.isSome && frame.components.contains .space

/-- A production that a run of white space may interrupt begins one where it sees white space. -/
theorem exists_step_eq_openSpace (hspace : frame.admitsSpace = true) (hc : isSpace c = true) :
    ∃ tree' parent, step limit ⟨some c, here⟩ tree (frame :: below) =
      openSpace ⟨some c, here⟩ tree' (frame :: below) parent := by
  rw [Frame.admitsSpace, Bool.and_eq_true, List.contains_iff_mem] at hspace
  match frame, hspace.2, hspace.1 with
  | .grammar true, _, _ =>
    have hparen : c ≠ '(' := ne_of_isSpace hc List.mem_cons_self
    have hletter : ¬isLetter c = true := by
      intro hletter
      rw [isSpace_eq_false_of_isLetter hletter] at hc
      cases hc
    refine ⟨tree, Tree.root, ?_⟩
    rw [step, stepGrammar, if_pos rfl]
    dsimp only
    rw [if_neg hparen, if_neg hletter, if_pos hc]
  | .product _ _ .equals, _, _ => exact ⟨_, _, if_pos hc⟩
  | .definitions _ .start, _, _ => exact ⟨_, _, if_pos hc⟩
  | .definition _ _ none, _, _ => exact ⟨_, _, if_pos hc⟩
  | .definition _ _ (some _), _, _ => exact ⟨_, _, if_pos hc⟩
  | .term _ _ false, _, _ => exact ⟨_, _, if_pos hc⟩
  | .exception .., _, _ => exact ⟨_, _, if_pos hc⟩
  | .repetition _, _, _ => exact ⟨_, _, if_pos hc⟩
  | .bracket _ _ (.opened _), _, _ => exact ⟨_, _, if_pos hc⟩

/-- What is accepted behind white space is accepted with the white space in front, where a run of it
may begin. -/
theorem acceptsFrom_of_skipSpace (hspace : frame.admitsSpace = true)
    (h : AcceptsFrom limit (frame :: below) (skipSpace text)) :
    AcceptsFrom limit (frame :: below) text := by
  -- the run that is read already has to be told apart from the one that is still to begin
  suffices h' : AcceptsFrom limit (frame :: below) text ∧
      ∀ id, AcceptsFrom limit (.run .space id :: frame :: below) text from h'.1
  induction text with
  | nil => exact ⟨h, fun id => acceptsFrom_run (List.forall_mem_nil _) rfl h⟩
  | cons c text ih =>
    cases hc : isSpace c with
    | true =>
      rw [skipSpace_cons_of_pos hc] at h
      obtain ⟨-, hrun⟩ := ih h
      refine ⟨acceptsFrom_of_step fun here tree => ?_,
        fun id => acceptsFrom_of_step fun here tree => ?_⟩
      · obtain ⟨tree', parent, hstep⟩ := exists_step_eq_openSpace hspace hc
        rw [List.head?_cons, hstep, openSpace]
        dsimp only
        rw [if_pos hc]
        exact hrun _
      · rw [List.head?_cons, step, stepRun]
        dsimp only
        rw [if_pos (show Run.space.holds c = true from hc)]
        exact hrun id
    | false =>
      rw [skipSpace_cons_of_neg hc] at h
      exact ⟨h, fun id => acceptsFrom_run (List.forall_mem_nil _) hc h⟩

end

end LosslessEbnf
