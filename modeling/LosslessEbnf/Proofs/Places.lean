import LosslessEbnf.Proofs.Spine

/-!
# Places of characters

Where the characters of a text stand, and which span a part of the text has.

## Main Definitions

* `places` — the positions of the characters of a text
* `Span.Denotes` — the span of a part of a text
* `Forest.Placed` — every tree of a forest has the span of its text

## Main Statements

* `Span.denotes_of_next` — a part ends one column in front of the character behind it, unless that
  is a line feed
* `Forest.Placed.denotes_last` — a node ends where the last tree below it ends

## Design Notes

A part without characters is denoted by the gap in front of the character behind it, so there has to
be such a character, and it cannot be a line feed: nothing on its line is to the left of that.
-/

namespace LosslessEbnf

/-- The positions of the characters of a text that begins after `p`. -/
def placesFrom (p : Position) : List Char → List Position
  | [] => []
  | c :: text => p.after c :: placesFrom (p.after c) text

/-- The positions of the characters of a text. -/
def places (text : List Char) : List Position := placesFrom .start text

@[simp] theorem placesFrom_nil (p : Position) : placesFrom p [] = [] := rfl

@[simp] theorem placesFrom_cons (p : Position) (c : Char) (text : List Char) :
    placesFrom p (c :: text) = p.after c :: placesFrom (p.after c) text := rfl

@[simp] theorem length_placesFrom (p : Position) (text : List Char) :
    (placesFrom p text).length = text.length := by
  induction text generalizing p with
  | nil => rfl
  | cons c text ih => simp [ih]

@[simp] theorem length_places (text : List Char) : (places text).length = text.length :=
  length_placesFrom ..

theorem placesFrom_append (p : Position) (s t : List Char) :
    placesFrom p (s ++ t) = placesFrom p s ++ placesFrom (p.afterAll s) t := by
  induction s generalizing p with
  | nil => rfl
  | cons c s ih => simp [ih]

theorem places_append (s t : List Char) :
    places (s ++ t) = places s ++ placesFrom (Position.start.afterAll s) t :=
  placesFrom_append ..

/-- The next character stands where the position of the reader goes to. -/
theorem places_append_singleton (s : List Char) (c : Char) :
    (places (s ++ [c]))[s.length]? = some ((Position.start.afterAll s).after c) := by
  rw [places_append, List.getElem?_append_right (by simp), length_places, Nat.sub_self]
  rfl

/-- The last character that was read stands where the reader is. -/
theorem places_last {s : List Char} (h : s ≠ []) :
    (places s)[s.length - 1]? = some (Position.start.afterAll s) := by
  rcases s.eq_nil_or_concat with rfl | ⟨front, c, rfl⟩
  · exact absurd rfl h
  · rw [List.concat_eq_append, List.length_append, List.length_singleton, Nat.add_sub_cancel,
      places_append_singleton, Position.afterAll_append]
    rfl

/-- What is read later does not move a character. -/
theorem places_append_of_eq_some {s : List Char} {i : Nat} {p : Position}
    (h : (places s)[i]? = some p) (t : List Char) : (places (s ++ t))[i]? = some p := by
  rw [places_append]
  exact List.getElem?_append_left (List.getElem?_eq_some_iff.mp h).1 ▸ h

/-- A character other than a line feed has a place on its left. -/
theorem column_after_ne_zero {p : Position} {c : Char} (h : c ≠ '\n') : (p.after c).column ≠ 0 := by
  rw [Position.after, if_neg h]
  exact Nat.succ_ne_zero _

theorem placesFrom_left {p q : Position} {text : List Char} {i : Nat}
    (h : (placesFrom p text)[i + 1]? = some q) (hq : q.column ≠ 0) :
    (placesFrom p text)[i]? = some q.left := by
  induction text generalizing p i with
  | nil => simp at h
  | cons c text ih =>
    cases i with
    | succ i => exact ih h
    | zero =>
      cases text with
      | nil => simp at h
      | cons d text =>
        simp only [placesFrom_cons, List.getElem?_cons_succ, List.getElem?_cons_zero,
          Option.some.injEq] at h ⊢
        subst h
        rw [Position.after] at hq ⊢
        split at hq
        · exact absurd rfl hq
        · rename_i hd
          rw [Position.after, if_neg hd]
          rfl

/-- On the left of a character that is not a line feed stands the character in front of it. -/
theorem places_left {text : List Char} {q : Position} {i : Nat}
    (h : (places text)[i + 1]? = some q) (hq : q.column ≠ 0) :
    (places text)[i]? = some q.left :=
  placesFrom_left h hq

/-! ### Spans -/

/-- The span is the one of the part `text` of `whole` that has `offset` characters in front. -/
structure Span.Denotes (whole : List Char) (offset : Nat) (text : List Char) (span : Span) :
    Prop where
  /-- It starts with the first character, or with the one behind a part without characters. -/
  first : (places whole)[offset]? = some span.first
  /-- It ends with the last character. -/
  last : text ≠ [] → (places whole)[offset + text.length - 1]? = some span.last
  /-- A part without characters ends one column in front of its start. -/
  gap : text = [] → span.last = span.first.left ∧ span.first.column ≠ 0

namespace Span

variable {whole text : List Char} {offset : Nat} {span : Span}

theorem Denotes.append (h : span.Denotes whole offset text) (more : List Char) :
    span.Denotes (whole ++ more) offset text where
  first := places_append_of_eq_some h.first more
  last hne := places_append_of_eq_some (h.last hne) more
  gap := h.gap

theorem Denotes.isEmpty (h : span.Denotes whole offset []) : span.isEmpty = true := by
  obtain ⟨hlast, hcolumn⟩ := h.gap rfl
  have hlt : span.first.column - 1 < span.first.column :=
    Nat.sub_lt (Nat.pos_of_ne_zero hcolumn) Nat.one_pos
  rw [Span.isEmpty, hlast, Position.left, beq_self_eq_true, Bool.true_and]
  exact decide_eq_true hlt

/-- A part ends one column in front of the character behind it, unless that is a line feed. -/
theorem denotes_of_next {first here : Position} (hfirst : (places whole)[offset]? = some first)
    (hhere : (places whole)[offset + text.length]? = some here) (hcolumn : here.column ≠ 0) :
    Denotes whole offset text ⟨first, here.left⟩ where
  first := hfirst
  last hne := by
    have hlength := List.length_pos_iff.mpr hne
    apply places_left _ hcolumn
    rwa [show offset + text.length - 1 + 1 = offset + text.length by omega]
  gap hnil := by
    subst hnil
    rw [List.length_nil, Nat.add_zero, hfirst, Option.some.injEq] at hhere
    subst hhere
    exact ⟨rfl, hcolumn⟩

/-- The span of a single character begins and ends at its place. -/
theorem denotes_point {c : Char} {here : Position} (h : (places whole)[offset]? = some here) :
    Denotes whole offset [c] (.point here) where
  first := h
  last _ := h
  gap hnil := by cases hnil

/-- The gap in front of a character that is not a line feed. -/
theorem denotes_gap {here : Position} (h : (places whole)[offset]? = some here)
    (hcolumn : here.column ≠ 0) : Denotes whole offset [] (.gap here) := by
  apply denotes_of_next h _ hcolumn
  exact h

/-- A part of several characters, given by its first and its last one. -/
theorem denotes_of_ends {first last : Position} (hne : text ≠ [])
    (hfirst : (places whole)[offset]? = some first)
    (hlast : (places whole)[offset + text.length - 1]? = some last) :
    Denotes whole offset text ⟨first, last⟩ where
  first := hfirst
  last _ := hlast
  gap hnil := absurd hnil hne

/-- A part of the text ends with the character behind it. -/
theorem denotes_snoc {first here : Position} (text : List Char) (c : Char)
    (hfirst : (places whole)[offset]? = some first)
    (hhere : (places whole)[offset + text.length]? = some here) :
    Denotes whole offset (text ++ [c]) ⟨first, here⟩ := by
  refine denotes_of_ends (by simp) hfirst ?_
  rwa [List.length_append, List.length_singleton, ← Nat.add_assoc, Nat.add_sub_cancel]

end Span

/-- Every tree of the forest has the span of its text, if the forest has `offset` characters of
`whole` in front. -/
def Forest.Placed (whole : List Char) (offset : Nat) (forest : Forest) : Prop :=
  forest.Spread (fun o text top => top.span.Denotes whole o text) offset

namespace Forest

variable {whole : List Char} {offset : Nat}

@[simp] theorem placed_nil : nil.Placed whole offset := trivial

theorem placed_append {left right : Forest} :
    (left ++ right).Placed whole offset ↔
      left.Placed whole offset ∧ right.Placed whole (offset + left.text.length) :=
  spread_append

theorem placed_single {top : Label} {below : Forest} :
    (single top below).Placed whole offset ↔
      top.span.Denotes whole offset (top.data.toList ++ below.text) ∧
        below.Placed whole (offset + top.data.toList.length) :=
  spread_single

theorem Placed.append {forest : Forest} (h : forest.Placed whole offset) (more : List Char) :
    forest.Placed (whole ++ more) offset :=
  h.mono fun _ _ _ hd => hd.append more

/-- A forest with a tree in it has a last tree. -/
theorem exists_last {forest : Forest} (h : forest ≠ nil) :
    ∃ front top below, forest = front ++ single top below := by
  induction forest with
  | nil => exact absurd rfl h
  | cons top below beside _ ih =>
    cases beside with
    | nil => exact ⟨nil, top, below, rfl⟩
    | cons top' below' beside' =>
      obtain ⟨front, last, belowLast, heq⟩ := ih nofun
      exact ⟨cons top below front, last, belowLast, by rw [heq, cons_append]⟩

/-- A node without text of its own ends where the last tree below it ends. -/
theorem Placed.denotes_last {front : Forest} {top : Label} {below : Forest} {first : Position}
    (h : (front ++ single top below).Placed whole offset)
    (hfirst : (places whole)[offset]? = some first) :
    Span.Denotes whole offset (front ++ single top below).text ⟨first, top.span.last⟩ := by
  obtain ⟨-, hlast⟩ := placed_append.mp h
  obtain ⟨hd, -⟩ := placed_single.mp hlast
  rw [text_append, text_single]
  by_cases htext : top.data.toList ++ below.text = []
  · -- a last tree without text ends in front of the next character, and so does the node
    rw [htext] at hd ⊢
    obtain ⟨hgap, hcolumn⟩ := hd.gap rfl
    rw [List.append_nil, hgap]
    exact Span.denotes_of_next hfirst hd.first hcolumn
  · have hend := hd.last htext
    refine Span.denotes_of_ends (fun hnil => htext (List.append_eq_nil_iff.mp hnil).2) hfirst ?_
    rwa [List.length_append, ← Nat.add_assoc]

end Forest

end LosslessEbnf
