import LosslessEbnf.Proofs.Trees

/-!
# Configurations that are reached

A run takes one character after the other, so it is known from the configurations between the
characters: from what one of them passes on to the next, and from where the machine stops.

## Main Definitions

* `Reached` — the configuration behind a text all of whose characters the machine takes
* `Config.Refuses` — what the machine sees makes it report an error

## Main Statements

* `Reached.between`, `Reached.grown` — how the machine stands in a configuration that is reached
* `Reached.runText_append` — reading goes on where it has arrived
* `Reached.of_runText_ok`, `exists_reached_of_error` — where a reading ends, and where it fails

## Design Notes

Nothing is said of the characters behind those that were taken. So two texts that begin alike reach
the same configurations as far as they are alike.
-/

namespace LosslessEbnf

/-- The machine takes all characters of the text and then stands in the configuration. -/
inductive Reached (limit : Nat) : List Char → Config → Prop
  /-- Nothing was read. -/
  | initial : Reached limit [] .initial
  /-- One more character is taken. -/
  | next {whole : List Char} {config : Config} {c : Char} {tree : Tree} {frames : List Frame}
      (before : Reached limit whole config)
      (taken : settle limit ⟨some c, config.position.after c⟩ config.tree config.frames =
        .waiting tree frames) :
      Reached limit (whole ++ [c]) ⟨tree, frames, config.position.after c⟩

namespace Reached

variable {limit : Nat} {whole : List Char} {config : Config}

/-- The machine stands as it may stand between two characters. -/
theorem between (h : Reached limit whole config) : config.Between whole := by
  induction h with
  | initial => exact .initial
  | @next _ _ c _ _ _ taken ih =>
    have hkeeps := ih.keeps_settle limit c
    rw [taken] at hkeeps
    exact ih.next hkeeps

/-- The tree has grown as it may have, whatever the next character is going to be. -/
theorem grown (h : Reached limit whole config) : config.Grown := by
  induction h with
  | initial => exact Config.grown_initial
  | @next _ config c _ _ _ taken ih =>
    have hgrows :
        (settle limit ⟨some c, config.position.after c⟩ config.tree config.frames).Grows :=
      grows_settle limit (ih (some c))
    rw [taken] at hgrows
    exact hgrows

/-- Reading a text and then another one is reading the second one from where the first one has got
to. -/
theorem runText_append (h : Reached limit whole config) (text : List Char) :
    runText limit .initial (whole ++ text) = runText limit config text := by
  induction h generalizing text with
  | initial => rfl
  | next _ taken ih => rw [List.append_assoc, ih, List.singleton_append, runText_cons, taken]

end Reached

/-! ### Where a reading ends -/

/-- What the machine sees if the given character is next. -/
def Config.sight (config : Config) (ahead : Option Char) : Sight :=
  ⟨ahead, ahead.elim config.position config.position.after⟩

/-- The machine refuses what it sees, and the error reports it. -/
structure Config.Refuses (limit : Nat) (config : Config) (ahead : Option Char)
    (error : ParseError) : Prop where
  /-- No further character is taken. -/
  settle_eq : settle limit (config.sight ahead) config.tree config.frames =
    .rejected error.tree error.cause
  /-- The error is reported where the reader stands. -/
  position_eq : error.position = (config.sight ahead).here

section

variable {limit : Nat} {config : Config} {whole text : List Char} {tree : Tree}

/-- A run that accepts takes all characters, and only the end of the input makes it accept. -/
theorem Reached.of_runText_ok (h : Reached limit whole config)
    (hrun : runText limit config text = .ok tree) :
    ∃ last, Reached limit (whole ++ text) last ∧
      settle limit ⟨none, last.position⟩ last.tree last.frames = .accepted tree := by
  induction text generalizing whole config with
  | nil =>
    rw [runText_nil, finish] at hrun
    rw [List.append_nil]
    split at hrun
    · rename_i hsettle
      exact (settle_atEnd_ne_waiting _ _ _ _ _ _ hsettle).elim
    · rename_i hsettle
      cases hrun
      exact ⟨config, h, hsettle⟩
    · cases hrun
  | cons c text ih =>
    have hkeeps := h.between.keeps_settle limit c
    rw [runText_cons] at hrun
    split at hrun
    · rename_i hsettle
      have hmore := ih (.next h hsettle) hrun
      rwa [List.append_assoc] at hmore
    · rename_i hsettle
      rw [hsettle] at hkeeps
      cases hkeeps.1
    · cases hrun

/-- A run fails at a character, behind which nothing is looked at, or at the end. -/
theorem Reached.of_runText_error {error : ParseError} (h : Reached limit whole config)
    (hrun : runText limit config text = .error error) :
    ∃ front back last, text = front ++ back ∧ Reached limit (whole ++ front) last ∧
      last.Refuses limit back.head? error := by
  induction text generalizing whole config with
  | nil =>
    rw [runText_nil, finish] at hrun
    refine ⟨[], [], config, rfl, by rwa [List.append_nil], ?_⟩
    split at hrun
    · cases hrun
    · cases hrun
    · rename_i hsettle
      cases hrun
      exact ⟨hsettle, rfl⟩
  | cons c text ih =>
    rw [runText_cons] at hrun
    split at hrun
    · rename_i hsettle
      obtain ⟨front, back, last, rfl, hlast, hrefuses⟩ := ih (.next h hsettle) hrun
      rw [List.append_assoc] at hlast
      exact ⟨c :: front, back, last, rfl, hlast, hrefuses⟩
    · cases hrun
    · rename_i hsettle
      cases hrun
      exact ⟨[], c :: text, config, rfl, by rwa [List.append_nil], hsettle, rfl⟩

end

/-- A text whose reading fails is taken up to some character or to its end. -/
theorem exists_reached_of_error {text : String} {limit : Nat} {error : ParseError}
    (h : parseText text limit = .error error) :
    ∃ front back last, text.toList = front ++ back ∧ Reached limit front last ∧
      last.Refuses limit back.head? error := by
  rw [parseText_eq] at h
  exact Reached.initial.of_runText_error h

/-- A run that refuses what it sees fails, whatever else stands behind it. -/
theorem Config.Refuses.runText_eq {limit : Nat} {config : Config} {error : ParseError}
    {text : List Char} (h : config.Refuses limit text.head? error) :
    runText limit config text = .error error := by
  obtain ⟨hsettle, hposition⟩ := h
  obtain ⟨cause, position, tree⟩ := error
  obtain rfl : position = _ := hposition
  cases text with
  | nil =>
    change settle limit ⟨none, config.position⟩ config.tree config.frames = _ at hsettle
    rw [runText_nil, finish, hsettle]
    rfl
  | cons c text =>
    change settle limit ⟨some c, config.position.after c⟩ config.tree config.frames = _ at hsettle
    rw [runText_cons, hsettle]
    rfl

end LosslessEbnf
