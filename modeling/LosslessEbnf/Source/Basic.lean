/-!
# Sources of characters

A source hands out the input a few characters at a time and may fail.

## Main Definitions

* `Fault` — why a source could not be read
* `Source` — what it takes to be a source
* `TextSource` — a text in memory
* `Script` — replies that are given one after the other, whatever is asked for
* `Logged` — a source that keeps a log of what it was asked and what it replied

## Design Notes

A source has a size, and a reply with characters in it makes the source smaller. So whoever reads on
until a reply is empty comes to an end.
-/

namespace LosslessEbnf

/-- The kinds of faults. -/
inductive FaultKind
  /-- There is no file of the name. -/
  | notFound
  /-- A directory was read as if it were a file. -/
  | isADirectory
  /-- A file was entered as if it were a directory. -/
  | notADirectory
  /-- A name is not one that a file can have. -/
  | invalidFilename
  /-- The other side ended the connection. -/
  | connectionReset
  /-- The reply took too long. -/
  | timedOut
  /-- The call was interrupted and may be repeated. -/
  | interrupted
  /-- What was asked for cannot be asked for. -/
  | invalidInput
  /-- The data are not what they should be. -/
  | invalidData
  /-- The data ended too early. -/
  | unexpectedEof
  /-- Any other fault. -/
  | other
  deriving DecidableEq, Repr

/-- Why a source could not be read. -/
structure Fault where
  /-- The kind of the fault. -/
  kind : FaultKind
  /-- What the reporter of the fault says about it. -/
  message : String
  deriving DecidableEq, Repr

/-- A source of characters. -/
class Source (σ : Type) where
  /-- Asks for the given number of characters. A reply of fewer characters says that the input ends
  after them. -/
  read : Nat → σ → Except Fault String × σ
  /-- How much there is still to read. -/
  size : σ → Nat
  /-- A reply that holds characters makes the source smaller. -/
  size_lt : ∀ {n : Nat} {s s' : σ} {text : String},
    read n s = (.ok text, s') → text.toList ≠ [] → size s' < size s

/-- A text in memory that is read from its front. -/
structure TextSource where
  /-- What was not read yet. -/
  rest : List Char
  deriving DecidableEq, Repr

namespace TextSource

/-- The source of a text. -/
def ofString (text : String) : TextSource := ⟨text.toList⟩

instance : Source TextSource where
  read n s := (.ok (String.ofList (s.rest.take n)), ⟨s.rest.drop n⟩)
  size s := s.rest.length
  size_lt := by
    intro n s s' text h ht
    simp only [Prod.mk.injEq, Except.ok.injEq] at h
    obtain ⟨rfl, rfl⟩ := h
    obtain ⟨rest⟩ := s
    cases n with
    | zero => simp at ht
    | succ n =>
      cases rest with
      | nil => simp at ht
      | cons c rest => simp only [List.length_drop, List.length_cons]; omega

end TextSource

/-- Replies that are given one after the other, and empty ones when they are used up. -/
structure Script where
  /-- The replies to come. -/
  replies : List (Except Fault String)

namespace Script

instance : Source Script where
  read _ s :=
    match s.replies with
    | [] => (.ok "", ⟨[]⟩)
    | reply :: replies => (reply, ⟨replies⟩)
  size s := s.replies.length
  size_lt := by
    intro n s s' text h ht
    obtain ⟨replies⟩ := s
    cases replies with
    | nil =>
      simp only [Prod.mk.injEq, Except.ok.injEq] at h
      exact absurd (by simp [← h.1]) ht
    | cons reply replies =>
      simp only [Prod.mk.injEq] at h
      simp [← h.2]

end Script

/-- What a source was asked for, and its reply. -/
structure Call where
  /-- The number of characters asked for. -/
  asked : Nat
  /-- The reply. -/
  reply : Except Fault String

/-- A source with a log of the calls to it, the first one first. -/
structure Logged (σ : Type) where
  /-- The source. -/
  source : σ
  /-- The calls so far. -/
  log : List Call

namespace Logged

instance {σ : Type} [Source σ] : Source (Logged σ) where
  read n s :=
    let (reply, source) := Source.read n s.source
    (reply, ⟨source, s.log ++ [⟨n, reply⟩]⟩)
  size s := Source.size s.source
  size_lt := by
    intro n s s' text h ht
    simp only [Prod.mk.injEq] at h
    obtain ⟨h, rfl⟩ := h
    exact Source.size_lt (Prod.ext h rfl) ht

end Logged

end LosslessEbnf
