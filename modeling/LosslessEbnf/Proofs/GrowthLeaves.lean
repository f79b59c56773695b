import LosslessEbnf.Proofs.Growth

/-!
# Growing leaves and comments

What the steps at marks, runs, names, quoted texts and comments make of the tree.

## Main Statements

* `Stacked.openLiteral` — a mark begins below the production that waits for it
* `Idle.openSpace` — white space begins where there is room for it
* `Stacked.openIdentifier` — a name begins below the production that waits for it
* `grows_stepComment` — a comment goes on

## Design Notes

A leaf is the innermost open node until it is complete. The text of a comment may grow again after
a mark that turned out to be text, so it is opened again for each of its characters.
-/

namespace LosslessEbnf

section

variable {sight : Sight} {tree : Tree} {frames below : List Frame} {leaf : Label} {spine : Spine}
  {node : OpenNode} {outer : Spine} {id : NodeId} {ahead : Option Char}

/-! ### Texts -/

/-- What is true of all characters of a text and of the next one is true of the longer text. -/
theorem forall_mem_push {P : Char → Prop} {data : String} {c : Char}
    (h : ∀ d ∈ data.toList, P d) (hc : P c) : ∀ d ∈ (data.push c).toList, P d := by
  intro d hd
  rw [String.toList_push] at hd
  rcases List.mem_append.mp hd with hd | hd
  · exact h d hd
  · rw [List.mem_singleton.mp hd]
    exact hc

theorem forall_mem_singleton {P : Char → Prop} {c : Char} (hc : P c) :
    ∀ d ∈ (String.singleton c).toList, P d := by
  rw [String.toList_singleton]
  exact List.forall_mem_singleton.mpr hc

/-! ### Marks -/

theorem grows_settleLiteral {candidates : List String} {best : Option (List Char × Position)}
    (fill : Filled tree leaf (.mark candidates) below spine) (id_eq : id = spine.size)
    (kind : leaf.kind = .literal)
    (best_mem : ∀ text last, best = some (text, last) → String.ofList text ∈ candidates)
    (cause : Cause) : (settleLiteral tree below id best cause).Grows ahead := by
  subst id_eq
  obtain ⟨kind', span, data⟩ := leaf
  obtain rfl : kind' = .literal := kind
  match best with
  | none => exact fill.cut rfl
  | some (text, last) =>
    have fill' : Filled ((tree.withData spine.size (String.ofList text)).withLast spine.size last)
        ⟨.literal, ⟨span.first, last⟩, String.ofList text⟩ (.mark candidates) below spine :=
      ⟨(fill.carries.withData _).withLast last, fill.rest⟩
    exact fill'.leave rfl trivial ⟨_, rfl, best_mem text last rfl⟩

theorem grows_stepMatched {candidates : List String} {text : List Char} {last : Position}
    (fill : Filled tree leaf (.mark candidates) below spine) (id_eq : id = spine.size)
    (kind : leaf.kind = .literal) (text_mem : String.ofList text ∈ candidates) :
    (stepMatched tree below id text last).Grows ahead := by
  have best_mem : ∀ text' last', some (text, last) = some (text', last') →
      String.ofList text' ∈ candidates := by
    intro text' last' h
    cases h
    exact text_mem
  exact grows_settleLiteral fill id_eq kind best_mem (.endOfInput .literal)

theorem grows_stepLiteral {candidates : List String} {read : List Char}
    {best : Option (List Char × Position)} (fill : Filled tree leaf (.mark candidates) below spine)
    (id_eq : id = spine.size) (kind : leaf.kind = .literal)
    (best_mem : ∀ text last, best = some (text, last) → String.ofList text ∈ candidates) :
    (stepLiteral sight tree below id candidates read best).Grows sight.ahead := by
  unfold stepLiteral
  cases sight.ahead with
  | none => exact grows_settleLiteral fill id_eq kind best_mem _
  | some c =>
    dsimp only
    split
    · refine fun ahead => .literal fill id_eq kind ?_
      intro text last h
      split at h
      · rename_i hfull
        cases h
        exact any_isRead_iff.mp hfull
      · exact best_mem text last h
    · split
      · rename_i hfull
        exact fun ahead => .matched fill id_eq kind (any_isRead_iff.mp hfull)
      · exact grows_settleLiteral fill id_eq kind best_mem _

/-- A mark begins below the production that waits for it. -/
theorem Stacked.openLiteral {candidates : List String}
    (h : Stacked (some (.mark candidates)) frames (node :: outer))
    (hcarries : tree.Carries (node :: outer)) :
    (LosslessEbnf.openLiteral sight tree frames outer.size candidates).Grows sight.ahead :=
  grows_stepLiteral (h.fill hcarries _ _ _) hcarries.size_eq rfl nofun

/-! ### Runs -/

/-- A run that is complete becomes a child of the production that had it begun. -/
theorem Filled.leaveRun {run : Run} (fill : Filled tree leaf run.yield below spine)
    (kind : leaf.kind = run.kind) (nonempty : leaf.data ≠ "")
    (holds : ∀ c ∈ leaf.data.toList, run.holds c = true) (hend : ahead.any run.holds = false) :
    Grown ahead tree below := by
  obtain ⟨kind', span, data⟩ := leaf
  obtain rfl : kind' = run.kind := kind
  cases run with
  | space => exact fill.leave rfl ⟨nonempty, holds⟩ ⟨hend, data, rfl⟩
  | number => exact fill.leave rfl ⟨nonempty, holds⟩ ⟨data, rfl⟩

theorem grows_stepRun {run : Run} (fill : Filled tree leaf run.yield below spine)
    (id_eq : id = spine.size) (kind : leaf.kind = run.kind) (nonempty : leaf.data ≠ "")
    (holds : ∀ c ∈ leaf.data.toList, run.holds c = true) :
    (stepRun sight tree below run id).Grows sight.ahead := by
  unfold stepRun
  cases hc : sight.ahead with
  | none => exact fill.leaveRun kind nonempty holds rfl
  | some c =>
    dsimp only
    split
    · rename_i hholds
      subst id_eq
      exact fun ahead => .run ⟨fill.carries.extend c sight.here, fill.rest⟩ rfl kind
        String.push_ne_empty (forall_mem_push holds hholds)
    · rename_i hholds
      exact fill.leaveRun kind nonempty holds (eq_false_of_ne_true hholds)

/-- White space begins where there is room for it, below the production that waits for something
else. -/
theorem Idle.openSpace {frame : Frame} (h : Idle sight.ahead tree frame below node outer)
    (hmem : .space ∈ frame.components) :
    (LosslessEbnf.openSpace sight tree (frame :: below) outer.size).Grows sight.ahead := by
  unfold LosslessEbnf.openSpace
  cases hc : sight.ahead with
  | none => exact h.cut
  | some c =>
    dsimp only
    split
    · rename_i hspace
      have hroom := h.fits.room hmem (by rw [hc]; exact hspace)
      have hawaits : frame.Awaits .space outer.size node := by
        rintro ahead more ⟨hahead, data, rfl⟩
        exact (hroom _ rfl).fits_of_ahead hahead
      exact fun ahead =>
        .run ((h.await frame hawaits).fill h.carries .space _ _) h.carries.size_eq rfl
          String.singleton_ne_empty (forall_mem_singleton hspace)
    · exact h.cut

/-! ### Names -/

namespace NameSoFar

variable {text : List Char} {trailing : Option Span} {c : Char}

theorem of_letter (hletter : isLetter c = true) : NameSoFar [c] none where
  letter := ⟨c, [], rfl, hletter⟩
  parts := by
    refine List.forall_mem_singleton.mpr ?_
    show (isLetter c || isDigit c || isSpace c) = true
    rw [hletter]
    rfl
  ends := ⟨[], c, [], rfl, isSpace_eq_false_of_isLetter hletter, List.forall_mem_nil _, by simp⟩

theorem letter_snoc (h : NameSoFar text trailing) (c : Char) :
    ∃ d rest, text ++ [c] = d :: rest ∧ isLetter d = true := by
  obtain ⟨d, rest, rfl, hletter⟩ := h.letter
  exact ⟨d, rest ++ [c], List.cons_append, hletter⟩

theorem parts_snoc (h : NameSoFar text trailing) (hpart : isNamePart c = true) :
    ∀ d ∈ text ++ [c], isNamePart d = true := by
  intro d hd
  rcases List.mem_append.mp hd with hd | hd
  · exact h.parts d hd
  · rw [List.mem_singleton.mp hd]
    exact hpart

/-- White space may end the name, or stand inside it. -/
theorem snoc_space (h : NameSoFar text trailing) (hpart : isNamePart c = true)
    (hspace : isSpace c = true) (span : Span) : NameSoFar (text ++ [c]) (some span) := by
  refine ⟨h.letter_snoc c, h.parts_snoc hpart, ?_⟩
  obtain ⟨front, d, blank, rfl, hd, hblank, -⟩ := h.ends
  refine ⟨front, d, blank ++ [c], List.append_assoc .., hd, ?_, by simp⟩
  intro x hx
  rcases List.mem_append.mp hx with hx | hx
  · exact hblank x hx
  · rw [List.mem_singleton.mp hx]
    exact hspace

/-- A letter or a digit goes on with the name, and what stood in front of it is part of it. -/
theorem snoc_solid (h : NameSoFar text trailing) (hpart : isNamePart c = true)
    (hspace : isSpace c = false) : NameSoFar (text ++ [c]) none :=
  ⟨h.letter_snoc c, h.parts_snoc hpart,
    text, c, [], (List.append_nil _).symm, hspace, List.forall_mem_nil _, by simp⟩

/-- The part of a name in front of the white space at its end. -/
theorem isName {front blank : List Char} (h : NameSoFar (front ++ [c] ++ blank) trailing)
    (hc : isSpace c = false) : IsName (front ++ [c]) where
  letter := by
    obtain ⟨d, rest, htext, hletter⟩ := h.letter
    cases front with
    | nil => exact ⟨c, [], rfl, (List.cons.inj htext).1 ▸ hletter⟩
    | cons first front => exact ⟨first, front ++ [c], rfl, (List.cons.inj htext).1 ▸ hletter⟩
  parts := fun d hd => h.parts d (List.mem_append_left _ hd)
  solid := ⟨front, c, rfl, hc⟩

end NameSoFar

/-- A name is given to the production around it, with a leaf for the white space behind it. -/
theorem Stacked.finishName {front blank : List Char} {span trail : Span}
    (h : Stacked (some .name) below (node :: outer))
    (hcarries : tree.Carries (node.add (.bare ⟨.primary .identifier, span, String.ofList front⟩) ::
      outer))
    (hname : IsName front) (hblank : Blank blank) (hne : blank ≠ [])
    (hahead : ahead.any isSpace = false) :
    Grown ahead (tree.pushChild outer.size .space trail (String.ofList blank)) below := by
  have hpushed := (hcarries.push .space trail (String.ofList blank)).close
  rw [OpenNode.add, OpenNode.add, Forest.append_assoc] at hpushed
  refine h.finish hpushed ?_ ⟨hahead, _, _, rfl, Or.inr ⟨_, rfl, rfl⟩⟩
  refine Forest.each_append.mpr ⟨Forest.each_single.mpr ⟨⟨rfl, ?_⟩, trivial⟩,
    Forest.each_single.mpr ⟨⟨rfl, ?_, ?_⟩, trivial⟩⟩
  · show IsName (String.ofList front).toList
    rwa [String.toList_ofList]
  · exact fun h => hne (by simpa using congrArg String.toList h)
  · show Blank (String.ofList blank).toList
    rwa [String.toList_ofList]

/-- A name ends, and the white space behind it gets a leaf of its own, below the parent of the
name. -/
theorem grows_stepIdentifier_atEnd {parent : NodeId} {trailing : Option Span} {here : Position}
    (fill : Filled tree leaf .name below spine) (id_eq : id = spine.size)
    (parent_eq : spine.top? = some parent) (kind : leaf.kind = .primary .identifier)
    (name : NameSoFar leaf.data.toList trailing) (hahead : ahead.any isSpace = false) :
    (stepIdentifier ⟨none, here⟩ tree below id parent trailing).Grows ahead := by
  subst id_eq
  obtain ⟨kind', span, data⟩ := leaf
  obtain rfl : kind' = .primary .identifier := kind
  obtain ⟨front, c, blank, htext, hc, hblank, htrailing⟩ := name.ends
  have hname : IsName (front ++ [c]) := by
    rw [htext] at name
    exact name.isName hc
  cases trailing with
  | none =>
    obtain rfl := htrailing.mp rfl
    rw [List.append_nil] at htext
    refine fill.leave rfl ?_ ⟨hahead, data, [], rfl, Slot.gap_nil⟩
    show IsName data.toList
    rwa [htext]
  | some trail =>
    have hne : blank ≠ [] := fun h => absurd (htrailing.mpr h) nofun
    obtain ⟨node, outer, rfl, rfl⟩ := Spine.exists_of_top? parent_eq
    have hsplit : splitTrailing (tree.data (Spine.size (node :: outer))).toList =
        (front ++ [c], blank) := by
      rw [fill.carries.shows.data_top, OpenNode.label_bare]
      show splitTrailing data.toList = _
      rw [htext]
      exact splitTrailing_append hc hblank
    unfold stepIdentifier
    dsimp only
    rw [hsplit]
    exact fill.rest.finishName (fill.carries.withData _).close hname hblank hne hahead

theorem grows_stepIdentifier {parent : NodeId} {trailing : Option Span}
    (fill : Filled tree leaf .name below spine) (id_eq : id = spine.size)
    (parent_eq : spine.top? = some parent) (kind : leaf.kind = .primary .identifier)
    (name : NameSoFar leaf.data.toList trailing) :
    (stepIdentifier sight tree below id parent trailing).Grows sight.ahead := by
  by_cases hend : ∀ c, sight.ahead = some c → isNamePart c = false
  · rw [stepIdentifier_eq_atEnd hend]
    refine grows_stepIdentifier_atEnd fill id_eq parent_eq kind name ?_
    cases hc : sight.ahead with
    | none => rfl
    | some c => exact (Bool.or_eq_false_iff.mp (hend c hc)).2
  · obtain ⟨c, hend⟩ := Classical.not_forall.mp hend
    obtain ⟨hc, hpart⟩ := Classical.not_imp.mp hend
    have hpart := eq_true_of_ne_false hpart
    have htext : (leaf.data.push c).toList = leaf.data.toList ++ [c] := String.toList_push c
    subst id_eq
    unfold stepIdentifier
    rw [hc]
    dsimp only
    rw [if_pos hpart]
    by_cases hspace : isSpace c = true
    · rw [if_pos hspace]
      refine fun ahead => .identifier ⟨fill.carries.pushText c, fill.rest⟩ rfl parent_eq kind ?_
      exact htext ▸ name.snoc_space hpart hspace _
    · rw [if_neg hspace]
      refine fun ahead => .identifier ⟨fill.carries.extend c sight.here, fill.rest⟩ rfl parent_eq
        kind ?_
      exact htext ▸ name.snoc_solid hpart (eq_false_of_ne_true hspace)

/-- A name begins below the production that waits for it. -/
theorem Stacked.openIdentifier {c : Char} (h : Stacked (some .name) frames (node :: outer))
    (hcarries : tree.Carries (node :: outer)) (hletter : isLetter c = true) :
    (LosslessEbnf.openIdentifier sight tree frames outer.size c).Grows ahead := by
  refine fun ahead => .identifier (h.fill hcarries _ _ _) hcarries.size_eq rfl rfl ?_
  rw [String.toList_singleton]
  exact .of_letter hletter

/-! ### Comments -/

variable {limit : Nat} {row : List Child}

/-- What a comment has behind its opener are texts and comments in any order, and no text next to
another one. -/
theorem matches_comment_iff :
    Matches (commentRule.take 2) row ↔
      ∃ opener rest, row = opener :: rest ∧ opener.IsMark ["(*"] ∧
        Slot.mixed [.text, .comment] .text rest := by
  constructor
  · rintro ⟨-, rest, rfl, ⟨opener, rfl, hopener⟩, more, -, rfl, hmore, rfl⟩
    exact ⟨opener, more, by simp, hopener, hmore⟩
  · rintro ⟨opener, rest, rfl, hopener, hrest⟩
    exact ⟨[opener], rest, rfl, Slot.one_singleton hopener, rest, [], (List.append_nil rest).symm,
      hrest, rfl⟩

/-- A comment that begins has its opener only, and may go on with a text. -/
theorem Frame.shape_comment {data : String} (first : NodeId) (hdata : data ∈ ["(*"]) :
    (Frame.comment id none .body).Shape id .comment [⟨first, .literal, data⟩] := by
  refine ⟨rfl, rfl, matches_comment_iff.mpr ⟨_, [], rfl, ⟨rfl, hdata⟩, Slot.mixed_nil _ _⟩, ?_⟩
  intro last hlast
  rw [← Option.some.inj hlast]
  nofun

/-- A comment gets one more child, which is a text only if the last one is not. -/
theorem Frame.Shape.comment_snoc {text text' : Option NodeId} {stage stage' : CommentStage}
    {kind : Kind} {host : NodeId} {child : Child}
    (h : (Frame.comment id text stage).Shape host kind row)
    (hkind : child.kind.bare ∈ [Kind.text, .comment])
    (hlast : ∀ last, row.getLast? = some last → last.kind = .text → child.kind ≠ .text)
    (htext : EndsWithText text' (row ++ [child])) :
    (Frame.comment id text' stage').Shape host kind (row ++ [child]) := by
  obtain ⟨hid, hcomment, hmatches, -⟩ := h
  obtain ⟨opener, rest, rfl, hopener, hrest⟩ := matches_comment_iff.mp hmatches
  refine ⟨hid, hcomment, matches_comment_iff.mpr ⟨opener, rest ++ [child], rfl, hopener, ?_⟩, htext⟩
  refine Slot.mixed_snoc hrest hkind fun last hrow => hlast last ?_
  rw [List.getLast?_cons, hrow]
  rfl

/-- The text at the end of a comment grows, and the comment keeps its shape with the longer text. -/
theorem Frame.Shape.comment_relabel {text : Option NodeId} {stage stage' : CommentStage}
    {kind : Kind} {host run : NodeId} {child child' : Child}
    (h : (Frame.comment id text stage).Shape host kind (row ++ [child]))
    (hchild : child.kind = .text) (hkind : child'.kind = .text) (hrun : child'.id = run) :
    (Frame.comment id (some run) stage').Shape host kind (row ++ [child']) := by
  obtain ⟨hid, hcomment, hmatches, -⟩ := h
  refine ⟨hid, hcomment, ?_, child', List.getLast?_concat .., hrun, hkind⟩
  obtain ⟨opener, rest, hrow, hopener, hrest⟩ := matches_comment_iff.mp hmatches
  rw [matches_comment_iff]
  cases row with
  | nil =>
    -- the opener is no text
    obtain rfl := (List.cons.inj hrow).1
    rw [hopener.1] at hchild
    cases hchild
  | cons first row =>
    obtain ⟨rfl, rfl⟩ := List.cons.inj hrow
    exact ⟨first, row ++ [child'], rfl, hopener,
      Slot.mixed_relabel hrest (hkind.trans hchild.symm)⟩

/-- The text that is the last child of the production on top is opened, grows and is closed again.
-/
theorem OnTop.growText {label top : Label} {front under : Forest}
    (h : OnTop tree below ⟨label, front ++ .single top under⟩ outer) (hkind : top.kind = .text)
    (c : Char) (here : Position) :
    OnTop (tree.extend (OpenNode.next outer.size ⟨label, front⟩) c here) below
      ⟨label, front ++ .single ⟨top.kind, ⟨top.span.first, here⟩, top.data.push c⟩ under⟩
      outer := by
  have hopened : tree.Carries (⟨top, under⟩ :: ⟨label, front⟩ :: outer) := h.carries.reopen
  obtain ⟨hfront, htext, hunder, -⟩ := Forest.each_append.mp h.sound.formed
  refine ⟨(hopened.extend c here).close, h.rest, h.sound.data, ?_, ?_⟩
  · refine Forest.each_append.mpr ⟨hfront, Forest.each_single.mpr ⟨⟨htext.builds, ?_⟩, hunder⟩⟩
    show top.kind.Spells (top.data.push c)
    rw [hkind]
    trivial
  · intro component hcomponent
    have hmem : component ∈ (front ++ .single top under).roots (outer.size + 1) :=
      h.sound.linked component hcomponent
    show component ∈ (front ++ .single _ under).roots (outer.size + 1)
    rw [Forest.roots_append] at hmem ⊢
    exact hmem

/-- A character of a comment gets into its text, which is the last child or a new one. -/
theorem Idle.addText {text : Option NodeId} {stage : CommentStage}
    (h : Idle ahead tree (.comment id text stage) below node outer) (c : Char) (here : Position) :
    ∃ node', ∀ ahead', Idle ahead' (LosslessEbnf.addText tree id text c here).1
      (.comment id (some (LosslessEbnf.addText tree id text c here).2) .body) below node'
      outer := by
  obtain ⟨rfl, -, -, hends⟩ := h.fits.shape
  have hshape := h.fits.shape
  cases text with
  | none =>
    refine ⟨_, fun ahead' =>
      ⟨h.addLeaf .text (.point here) (String.singleton c) rfl trivial, ?_⟩⟩
    rw [OpenNode.row_add_bare]
    refine Frame.Shape.fits ?_ (by simp [Frame.components])
    exact hshape.comment_snoc List.mem_cons_self
      (fun last hlast htext => absurd htext (hends last hlast))
      ⟨_, List.getLast?_concat .., h.carries.size_eq.symm, rfl⟩
  | some run =>
    obtain ⟨last, hlast, rfl, hkind⟩ := hends
    have hbelow : node.below ≠ .nil := by
      intro hnil
      rw [OpenNode.row, hnil] at hlast
      cases hlast
    obtain ⟨label, forest⟩ := node
    obtain ⟨front, top, under, rfl⟩ := Forest.exists_last hbelow
    rw [OpenNode.row_append] at hlast hshape
    obtain rfl := Option.some.inj ((List.getLast?_concat ..).symm.trans hlast)
    have hgrown : (Frame.comment outer.size (some (OpenNode.next outer.size ⟨label, front⟩))
        .body).Shape outer.size label.kind (OpenNode.row outer.size ⟨label, front⟩ ++
          [⟨OpenNode.next outer.size ⟨label, front⟩, top.kind, top.data.push c⟩]) :=
      hshape.comment_relabel hkind hkind rfl
    refine ⟨_, fun ahead' => ⟨h.growText hkind c here, ?_⟩⟩
    rw [OpenNode.row_append]
    exact hgrown.fits (by simp [Frame.components])

/-- A comment waits for a comment inside it, and may go on with a text behind that. -/
theorem awaits_comment {text : Option NodeId} {stage : CommentStage}
    (h : Idle ahead tree (.comment id text stage) below node outer) :
    (Frame.comment id none .body).Awaits (.node .comment) outer.size node := by
  rintro ahead more ⟨-, kind, rfl, hbare⟩
  obtain rfl : kind = .comment := Kind.eq_of_bare hbare (by simp)
  refine Frame.Shape.fits ?_ (by simp [Frame.components])
  refine h.fits.shape.comment_snoc (by simp [Kind.bare]) (fun _ _ _ => (by simp)) ?_
  intro last hlast
  rw [List.getLast?_concat] at hlast
  rw [← Option.some.inj hlast]
  simp

/-- A comment ends with its closer, and with that its children are those of a comment. -/
theorem Idle.closeComment {text : Option NodeId} {stage : CommentStage}
    (h : Idle ahead tree (.comment id text stage) below node outer) (closer : Span)
    (last : Position) (ahead' : Option Char) :
    Grown ahead' ((tree.pushChild id .literal closer "*)").withLast id last) below := by
  obtain ⟨rfl, hcomment, hmatches, -⟩ := h.fits.shape
  have hclosed : node.label.kind.Closed
      (node.row outer.size ++ [⟨node.next outer.size, .literal, "*)"⟩]) := by
    rw [hcomment]
    refine ⟨nofun, nofun, ?_, rfl⟩
    exact hmatches.snoc (Slot.one_singleton ⟨rfl, List.mem_singleton.mpr rfl⟩)
  exact h.leaveWithMark closer last hclosed

theorem grows_stepComment {text : Option NodeId} {stage : CommentStage}
    (h : Idle sight.ahead tree (.comment id text stage) below node outer) :
    (stepComment limit sight tree below id text stage).Grows sight.ahead := by
  have hmoved : ∀ stage' ahead', Grown ahead' tree (.comment id text stage' :: below) :=
    fun stage' ahead' =>
      .idle (h.move (Frame.Shape.fits h.fits.shape (by simp [Frame.components])))
  unfold stepComment
  cases sight.ahead with
  | none => exact h.cut
  | some c =>
    dsimp only
    cases stage with
    | body =>
      dsimp only
      split
      · exact hmoved (.mark c sight.here)
      · obtain ⟨node', hidle⟩ := h.addText c sight.here
        exact fun ahead => .idle (hidle ahead)
    | mark first start =>
      dsimp only
      split
      · exact h.closeComment _ _
      · split
        · exact hmoved (.opened ⟨start, sight.here⟩)
        · obtain ⟨node', hidle⟩ := h.addText first start
          exact .idle (hidle _)
    | opened opener =>
      dsimp only
      split
      · exact h.cut
      · obtain rfl := h.fits.shape.1
        have hopener : (Frame.comment (Spine.size (node :: outer)) none .body).Fits (some c)
            (Spine.size (node :: outer)) .comment
            [⟨Spine.size (node :: outer) + 1, .literal, "(*"⟩] :=
          (Frame.shape_comment _ (List.mem_singleton.mpr rfl)).fits (by simp [Frame.components])
        rw [h.carries.size_eq]
        exact .idle (Stacked.pushWithMark .comment _ opener (h.await _ (awaits_comment h)) h.carries
          (by simp) rfl hopener)

/-- A comment begins below the production that waits for it. -/
theorem Stacked.openComment (h : Stacked (some (.node .comment)) frames (node :: outer))
    (hcarries : tree.Carries (node :: outer)) :
    (LosslessEbnf.openComment limit sight tree frames outer.size).Grows sight.ahead := by
  unfold LosslessEbnf.openComment
  split
  · exact h.cut hcarries
  · rw [hcarries.size_eq]
    have hawaits : (Frame.comment (Spine.size (node :: outer)) none .body).Awaits (.mark ["(*"])
        (Spine.size (node :: outer)) (.bare ⟨.comment, .point sight.here, ""⟩) := by
      rintro ahead more ⟨data, rfl, hdata⟩
      exact (Frame.shape_comment _ hdata).fits (by simp [Frame.components])
    exact (Stacked.pushWaiting .comment _ h (by simp) rfl hawaits).openLiteral (hcarries.push _ _ _)

end

end LosslessEbnf
