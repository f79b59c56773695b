import LosslessEbnf.Parse
import LosslessEbnf.Proofs.Runs

/-!
# Accepted texts

The text of the tree of an accepted text is that text.

## Main Statements

* `finished_of_parseText` — the tree of an accepted text is finished
* `text_of_parseText` — an accepted text is the text of its tree
-/

namespace LosslessEbnf

theorem Tree.Finished.text_eq {sure : Prop} {whole : List Char} {tree : Tree}
    (h : tree.Finished sure whole) : tree.text.toList = whole := by
  obtain ⟨root, hshows, htext, -⟩ := h
  rw [hshows.text, Spine.text_cons, htext]
  rfl

/-- The tree of an accepted text is finished: it shows the text, and all its spans are right. -/
theorem finished_of_parseText {text : String} {maxNesting : Nat} {tree : Tree}
    (h : parseText text maxNesting = .ok tree) : tree.Finished True text.toList := by
  rw [parseText_eq] at h
  exact finished_of_runText .initial h

/-- **Lossless reading.** An accepted text is the text of its tree, character for character. -/
theorem text_of_parseText {text : String} {maxNesting : Nat} {tree : Tree}
    (h : parseText text maxNesting = .ok tree) : tree.text = text :=
  String.toList_inj.mp (finished_of_parseText h).text_eq

theorem exists_tree_of_isOk {result : Except ParseError Tree} (h : result.isOk = true) :
    ∃ tree, result = .ok tree := by
  cases result with
  | ok tree => exact ⟨tree, rfl⟩
  | error error => cases h

/-- A name with white space at its end, an opener and a closer of two characters, an empty term. -/
theorem text_of_parseText_nested :
    ∃ tree, parseText "a b = (/'x' | c /) - d /[2*e]; (* f *)" 2 = .ok tree ∧
      tree.text = "a b = (/'x' | c /) - d /[2*e]; (* f *)" := by
  obtain ⟨tree, htree⟩ := exists_tree_of_isOk
    (show (parseText "a b = (/'x' | c /) - d /[2*e]; (* f *)" 2).isOk = true by decide +kernel)
  exact ⟨tree, htree, text_of_parseText htree⟩

end LosslessEbnf
