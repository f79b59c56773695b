import LosslessEbnf.Proofs.GrowthLeaves
import LosslessEbnf.Proofs.Residual

/-!
# Growing primaries

What the steps at texts between marks and at brackets make of the tree.

## Main Definitions

* `AwaitsPrimary` — open productions that wait for a primary, whichever it is

## Main Statements

* `grows_stepQuoted` — a text between marks goes on
* `grows_stepBracket` — a bracket goes on
* `Grown.handOver` — a closer that is handed over changes nothing in the tree
* `AwaitsPrimary.open` — a primary begins below the production that waits for it

## Design Notes

A `(` may begin any of the three brackets. So what it is held back for has to admit all of them.
-/

namespace LosslessEbnf

section

variable {sight : Sight} {tree : Tree} {frames below : List Frame} {spine : Spine}
  {node : OpenNode} {outer : Spine} {id : NodeId} {ahead : Option Char} {limit : Nat}

/-! ### Productions that their last mark ends -/

theorem grows_stepClosing (h : Idle ahead tree (.closing id) below node outer) :
    (stepClosing tree below id).Grows ahead := by
  obtain ⟨rfl, hclosed⟩ := h.fits.shape
  obtain ⟨span, hcarries⟩ := h.carries.closeAtLastChild
  exact (h.respan hcarries).leaveClosed hclosed

/-- A production waits for the mark that ends it. -/
theorem awaits_closing {spellings : List String}
    (h : ∀ data ∈ spellings, node.label.kind.Closed
      (node.row outer.size ++ [⟨node.next outer.size, .literal, data⟩])) :
    (Frame.closing outer.size).Awaits (.mark spellings) outer.size node := by
  rintro ahead more ⟨data, rfl, hdata⟩
  have hshape : (Frame.closing outer.size).Shape outer.size node.label.kind
      (node.row outer.size ++ [⟨node.next outer.size, .literal, data⟩]) := ⟨rfl, h data hdata⟩
  exact hshape.fits (by simp [Frame.components])

/-! ### Texts between marks -/

theorem Quoted.bare_primary (form : Quoted) :
    (Kind.primary form.primary).bare = .primary form.primary := by
  cases form <;> rfl

/-- A text between two marks with its three parts. -/
theorem Quoted.closed {form : Quoted} {row : List Child} (hproper : form.Proper)
    (hrow : Matches (quotedRule form.mark) row) : (Kind.primary form.primary).Closed row := by
  cases form with
  | terminal quote => exact ⟨nofun, nofun, ⟨quote, hproper quote rfl, hrow⟩, rfl⟩
  | special => exact ⟨nofun, nofun, hrow, rfl⟩

/-- Behind its opening mark a text between marks waits for the text and the closing mark. -/
theorem Idle.awaits_text {form : Quoted}
    (h : Idle ahead tree (.quoted form id none) below node outer) :
    (Frame.closing outer.size).Awaits (.text form.mark) outer.size node := by
  obtain ⟨-, hkind, hproper, hrow⟩ := h.fits.shape
  rintro ahead more ⟨data, rfl, hfree⟩
  have hshape : (Frame.closing outer.size).Shape outer.size node.label.kind
      (node.row outer.size ++ [⟨node.next outer.size, .text, data⟩,
        ⟨node.next outer.size + 1, .literal, String.singleton form.mark⟩]) := by
    refine ⟨rfl, ?_⟩
    rw [hkind, List.append_cons]
    refine Quoted.closed hproper ((hrow.snoc ?_).snoc ?_)
    · exact Slot.one_singleton ⟨rfl, hfree⟩
    · exact Slot.one_singleton ⟨rfl, List.mem_singleton.mpr rfl⟩
  exact hshape.fits (by simp [Frame.components])

/-- The text between two marks begins behind the first one, as a leaf that may stay empty. -/
theorem grows_stepQuoted_begin {form : Quoted}
    (h : Idle sight.ahead tree (.quoted form id none) below node outer) :
    (stepQuoted sight tree below form id none).Grows sight.ahead := by
  obtain rfl := h.fits.shape.1
  exact .quoted ((h.await _ h.awaits_text).fill h.carries .text _ _) h.carries.size_eq rfl rfl
    (List.forall_mem_nil _)

/-- The text between two marks goes on, or its closing mark is next, and then the text is
complete. -/
theorem grows_stepQuoted {form : Quoted} {run : NodeId} {leaf : Label}
    (fill : Filled tree leaf (.text form.mark) (.closing id :: below) spine)
    (run_eq : run = spine.size) (top_eq : spine.top? = some id) (kind : leaf.kind = .text)
    (free : ∀ c ∈ leaf.data.toList, c ≠ form.mark) :
    (stepQuoted sight tree below form id (some run)).Grows sight.ahead := by
  subst run_eq
  obtain ⟨kind', span, data⟩ := leaf
  obtain rfl : kind' = .text := kind
  unfold stepQuoted
  cases hc : sight.ahead with
  | none => exact fill.cut rfl
  | some c =>
    dsimp only
    split
    · obtain ⟨node, outer, rfl, rfl⟩ := Spine.exists_of_top? top_eq
      have hcarries := (fill.carries.withLast sight.here.left).close
      rw [← hc]
      refine (fill.rest.resume ⟨.text, ⟨span.first, sight.here.left⟩, data⟩ rfl trivial
        ?_).openLiteral hcarries
      rintro first ahead more ⟨mark, rfl, hmark⟩
      rw [List.mem_singleton.mp hmark]
      exact ⟨data, rfl, free⟩
    · rename_i hne
      exact fun ahead => .quoted ⟨fill.carries.pushText c, fill.rest⟩ rfl top_eq rfl
        (forall_mem_push free hne)

/-- A text between marks begins below the production that waits for it, and waits for its first
mark. -/
theorem Stacked.openQuoted (form : Quoted)
    (h : Stacked (some (.node (.primary form.primary))) frames (node :: outer))
    (hcarries : tree.Carries (node :: outer)) (hproper : form.Proper) :
    (LosslessEbnf.openQuoted sight tree frames outer.size form).Grows sight.ahead := by
  have hawaits : (Frame.quoted form (Spine.size (node :: outer)) none).Awaits
      (.mark [String.singleton form.mark]) (Spine.size (node :: outer))
      (.bare ⟨.primary form.primary, .point sight.here, ""⟩) := by
    rintro ahead more ⟨data, rfl, hdata⟩
    refine Frame.Shape.fits ⟨rfl, rfl, hproper, ?_⟩ (by simp [Frame.components])
    exact matches_single.mpr (Slot.one_singleton ⟨rfl, hdata⟩)
  have hcomponents : (Kind.primary form.primary).components = [] := by cases form <;> rfl
  rw [← form.bare_primary] at h
  unfold LosslessEbnf.openQuoted
  rw [hcarries.size_eq]
  exact (Stacked.pushWaiting _ _ h (by simp) hcomponents hawaits).openLiteral (hcarries.push _ _ _)

/-! ### Brackets -/

/-- A bracket that begins has its opener only, and room behind it. -/
theorem Frame.fits_opener {b : Bracket} {data : String} (h : data ∈ b.openers) :
    (Frame.bracket b id (.opened (id + 1))).Fits ahead id (.primary (.bracketed b none))
      [⟨id + 1, .literal, data⟩] := by
  refine Frame.Shape.fits_of_gap fun gap hgap => ⟨rfl, ⟨none, rfl⟩, ?_⟩
  have hopener : Matches ((bracketRule b (some (id + 1))).take 1) [⟨id + 1, .literal, data⟩] :=
    matches_single.mpr (Slot.one_singleton ⟨⟨rfl, h⟩, rfl⟩)
  exact hopener.snoc hgap

/-- A bracket begins below the production that waits for it, and waits for its opener. -/
theorem Stacked.openBracket {b : Bracket}
    (h : Stacked (some (.node (.primary (.bracketed b none)))) frames (node :: outer))
    (hcarries : tree.Carries (node :: outer)) :
    (LosslessEbnf.openBracket limit sight tree frames outer.size b).Grows sight.ahead := by
  unfold LosslessEbnf.openBracket
  split
  · exact h.cut hcarries
  · rw [hcarries.size_eq]
    have hawaits : (Frame.bracket b (Spine.size (node :: outer))
        (.opened (Spine.size (node :: outer) + 1))).Awaits (.mark b.openers)
        (Spine.size (node :: outer))
        (.bare ⟨.primary (.bracketed b none), .point sight.here, ""⟩) := by
      rintro ahead more ⟨data, rfl, hdata⟩
      exact Frame.fits_opener hdata
    have hbracket := Stacked.pushWaiting (.primary (.bracketed b none)) _ h nofun rfl hawaits
    exact hbracket.openLiteral (hcarries.push _ _ _)

/-- A bracket whose opener was held back begins below the production that waits for it. -/
theorem Stacked.attachBracket {b : Bracket} {opener : Span}
    (h : Stacked (some (.node (.primary (.bracketed b none)))) frames (node :: outer))
    (hcarries : tree.Carries (node :: outer)) :
    (LosslessEbnf.attachBracket limit sight tree frames outer.size b opener).Grows ahead := by
  unfold LosslessEbnf.attachBracket
  split
  · exact h.cut hcarries
  · rw [hcarries.size_eq]
    exact .idle (Stacked.pushWithMark (.primary (.bracketed b none)) _ opener h hcarries nofun rfl
      (Frame.fits_opener b.roundOpener_mem))

/-- An opener that was held back gets into the tree. -/
theorem grows_stepOpener {b : Bracket} {parent : NodeId} {opener : Span}
    (hcarries : tree.Carries spine) (parent_eq : spine.top? = some parent)
    (rest : Stacked (some (.node (.primary (.bracketed b none)))) below spine) :
    (attachBracket limit sight tree below parent b opener).Grows ahead := by
  obtain ⟨node, outer, rfl, rfl⟩ := Spine.exists_of_top? parent_eq
  exact rest.attachBracket hcarries

theorem grows_stepParen {parent : NodeId} {start : Position} (hcarries : tree.Carries spine)
    (parent_eq : spine.top? = some parent)
    (rest : ∀ b, Stacked (some (.node (.primary (.bracketed b none)))) below spine) :
    (stepParen limit sight tree below parent start).Grows sight.ahead := by
  unfold stepParen
  cases sight.ahead with
  | none => exact (rest .grouped).cut hcarries
  | some c =>
    dsimp only
    split
    · exact fun ahead => .opener hcarries parent_eq (rest .repeated)
    · split
      · exact fun ahead => .opener hcarries parent_eq (rest .optional)
      · exact grows_stepOpener hcarries parent_eq (rest .grouped)

/-- A bracket with its opener, its definitions and its closer. -/
theorem Bracket.closed {b : Bracket} {opening : Option NodeId} {row : List Child} {mark : Child}
    (hrow : Matches ((bracketRule b opening).take 3) row) (hmark : mark.IsMark b.allClosers) :
    (Kind.primary (.bracketed b opening)).Closed (row ++ [mark]) :=
  ⟨nofun, nofun, hrow.snoc (Slot.one_singleton hmark), rfl⟩

/-- A list of definitions begins below the production that waits for it. -/
theorem Stacked.openDefinitions {span : Span}
    (h : Stacked (some (.node .definitionList)) frames (node :: outer))
    (hcarries : tree.Carries (node :: outer)) (hahead : ahead.any isSpace = false) :
    Grown ahead (tree.pushChild outer.size .definitionList span)
      (.definitions tree.size .start :: frames) := by
  have hstart : (Frame.definitions (Spine.size (node :: outer)) .start).Shape
      (Spine.size (node :: outer)) .definitionList [] := ⟨rfl, rfl, Or.inl rfl⟩
  rw [hcarries.size_eq]
  exact .idle (Stacked.push .definitionList span h hcarries nofun rfl (hstart.fits_of_ahead hahead))

/-- A bracket records its opener, and then its definitions begin, or white space in front of
them. -/
theorem grows_stepBracket_opened {b : Bracket} {opening : NodeId}
    (h : Idle sight.ahead tree (.bracket b id (.opened opening)) below node outer) :
    (stepBracket sight tree below b id (.opened opening)).Grows sight.ahead := by
  obtain ⟨rfl, ⟨held, hkind⟩, hrow⟩ := h.fits.shape
  have hlinked : ∀ component ∈ (Kind.primary (.bracketed b (some opening))).components,
      ∃ child ∈ node.row outer.size, child.id = component := by
    intro component hcomponent
    obtain rfl := List.mem_singleton.mp hcomponent
    exact hrow.exists_of_link List.mem_cons_self rfl
  have hopened := h.record (by rw [hkind]; rfl) hlinked fun _ hshape =>
    ⟨hshape.1, ⟨_, rfl⟩, hshape.2.2⟩
  unfold stepBracket
  dsimp only
  split
  · exact hopened.openSpace (by simp [Frame.components])
  · rename_i hahead
    have hawaits : (Frame.bracket b outer.size (.body none)).Awaits (.node .definitionList)
        outer.size
        ⟨{ node.label with kind := .primary (.bracketed b (some opening)) }, node.below⟩ := by
      rintro ahead more ⟨-, kind, rfl, hbare⟩
      obtain rfl : kind = .definitionList := Kind.eq_of_bare hbare (by simp)
      refine Frame.Shape.fits ⟨rfl, some opening, rfl, ?_⟩ (by simp [Frame.components])
      exact hrow.snoc (Slot.one_singleton rfl)
    exact (hopened.await _ hawaits).openDefinitions hopened.carries (eq_false_of_ne_true hahead)

theorem grows_stepBracket {b : Bracket} {stage : BracketStage}
    (h : Idle sight.ahead tree (.bracket b id stage) below node outer) :
    (stepBracket sight tree below b id stage).Grows sight.ahead := by
  match stage with
  | .opened opening => exact grows_stepBracket_opened h
  | .body none =>
    obtain ⟨rfl, opening, hkind, hrow⟩ := h.fits.shape
    refine (h.await _ (awaits_closing fun data hdata => ?_)).openLiteral h.carries
    rw [hkind]
    exact Bracket.closed hrow ⟨rfl, b.closers_subset hdata⟩
  | .body (some closer) =>
    obtain ⟨rfl, opening, hkind, hrow⟩ := h.fits.shape
    unfold stepBracket
    dsimp only
    split
    · rename_i hb
      subst hb
      have hmem : "/)" ∈ Bracket.repeated.allClosers := by decide
      refine h.leaveWithMark closer closer.last ?_
      rw [hkind]
      exact Bracket.closed hrow ⟨rfl, hmem⟩
    · exact h.cut

/-- A closer that is handed over changes nothing in the tree. -/
theorem Grown.handOver (h : Grown ahead tree frames) (closer : Span) :
    Grown ahead tree (LosslessEbnf.handOver closer frames) := by
  unfold LosslessEbnf.handOver
  split
  · cases h with
    | idle h => exact .idle (h.move (Frame.Shape.fits h.fits.shape (by simp [Frame.components])))
  · cases h with
    | idle h => exact .idle (h.move (Frame.Shape.fits h.fits.shape (by simp [Frame.components])))
  · exact h

/-! ### All primaries -/

/-- What is given is a primary that is not empty, with the white space behind a name. -/
def Yield.IsPrimary : Yield → Prop
  | .name => True
  | .node bare => ∃ form, form ≠ .emptyString ∧ bare = (Kind.primary form).bare
  | _ => False

/-- The kinds of primaries can be told from their kinds without components. -/
theorem Kind.exists_primary_of_bare {kind : Kind} {form : Primary} (hform : form ≠ .emptyString)
    (h : kind.bare = (Kind.primary form).bare) :
    ∃ form', kind = .primary form' ∧ form' ≠ .emptyString := by
  cases kind with
  | primary form' =>
    refine ⟨form', rfl, ?_⟩
    rintro rfl
    cases form <;> first | exact hform rfl | cases h
  | _ => cases form <;> cases h

/-- A primary is given as a child, and white space behind it only where none is next. -/
theorem Yield.IsPrimary.exists_of_gives {yield : Yield} {first : NodeId} {more : List Child}
    (h : yield.IsPrimary) (hgives : yield.Gives ahead first more) :
    ∃ child gap, more = child :: gap ∧ child.id = first ∧ child.IsPrimary ∧ Slot.gap gap ∧
      (gap = [] ∨ ahead.any isSpace = false) := by
  cases yield with
  | name =>
    obtain ⟨hahead, data, gap, rfl, hgap⟩ := hgives
    exact ⟨_, gap, rfl, rfl, ⟨.identifier, rfl, nofun⟩, hgap, Or.inr hahead⟩
  | node bare =>
    obtain ⟨form, hform, rfl⟩ := h
    obtain ⟨-, kind, rfl, hbare⟩ := hgives
    exact ⟨_, [], rfl, rfl, Kind.exists_primary_of_bare hform hbare, Slot.gap_nil, Or.inl rfl⟩
  | mark | space | number | text => cases h

/-- A production waits for a primary if it fits with one and any white space behind it. -/
theorem awaits_primary {yield : Yield} {frame : Frame} (hyield : yield.IsPrimary)
    (h : ∀ child gap, child.id = node.next outer.size → child.IsPrimary → Slot.gap gap →
      frame.Shape outer.size node.label.kind (node.row outer.size ++ child :: gap)) :
    frame.Awaits yield outer.size node := by
  intro ahead more hgives
  obtain ⟨child, gap, rfl, hid, hchild, hgap, hahead⟩ := hyield.exists_of_gives hgives
  rcases hahead with rfl | hahead
  · refine Frame.Shape.fits_of_gap fun gap hgap => ?_
    rw [List.append_assoc]
    exact h child gap hid hchild hgap
  · exact (h child gap hid hchild hgap).fits_of_ahead hahead

/-- Open productions that wait for a primary, whichever it is. -/
def AwaitsPrimary (frames : List Frame) (spine : Spine) : Prop :=
  ∀ yield : Yield, yield.IsPrimary → Stacked (some yield) frames spine

/-- Where something else is expected than what is next, the tree does not grow. -/
theorem grows_unexpected {expected : Expectation} (h : tree.Partial) :
    (sight.unexpected tree expected).Grows ahead := by
  unfold Sight.unexpected
  split <;> exact h

/-- A primary begins below the production that waits for it. What waits does not know which primary
it is going to be. -/
theorem AwaitsPrimary.openPrimary {c : Char} (h : AwaitsPrimary frames (node :: outer))
    (hcarries : tree.Carries (node :: outer)) :
    (LosslessEbnf.openPrimary limit sight tree frames outer.size c).Grows sight.ahead := by
  have hform : ∀ form, form ≠ .emptyString →
      Stacked (some (.node (Kind.primary form).bare)) frames (node :: outer) :=
    fun form hne => h (.node _) ⟨form, hne, rfl⟩
  have hbracket := fun b => hform (.bracketed b none) nofun
  unfold LosslessEbnf.openPrimary
  split
  · rename_i hletter
    rw [expectIdentifier_of_isLetter hletter]
    exact (h .name trivial).openIdentifier hcarries hletter
  · split
    · rename_i hquote
      rw [expectTerminal_of_isQuote hquote]
      refine Stacked.openQuoted (.terminal c) (hform .terminal nofun) hcarries fun quote heq => ?_
      obtain rfl := Quoted.terminal.inj heq
      exact hquote
    · split
      · exact (hbracket .repeated).openBracket hcarries
      · split
        · exact (hbracket .optional).openBracket hcarries
        · split
          · exact Stacked.openQuoted .special (hform .special nofun) hcarries nofun
          · split
            · exact fun ahead => .paren hcarries rfl hbracket
            · exact grows_unexpected ((h .name trivial).cut hcarries)

end

end LosslessEbnf
