import LosslessEbnf.Parse
import LosslessEbnf.Proofs.Runs

/-!
# Refused texts

The text of the tree of a failure is what was delivered, all but the last few characters, and the
failure says what is wrong with these.

## Main Definitions

* `Logged.delivered` — the characters that a source delivered
* `Delivers` — a source that delivers its characters one by one
* `Cause.Accounts`, `ParseError.Accounts` — what a failure says about what was delivered

## Main Statements

* `accounts_of_drive` — how a run on a source fails
* `accounts_of_parse` — how the reading of a source fails

## Design Notes

How many characters were delivered is taken from the log of the source. The log does not change what
the source is read as (`drive_logged`).
-/

namespace LosslessEbnf

/-! ### Sources -/

/-- The characters of a reply. -/
def Call.text (call : Call) : List Char :=
  match call.reply with
  | .ok text => text.toList
  | .error _ => []

namespace Logged

variable {σ : Type}

/-- The source before any call to it. -/
def fresh (source : σ) : Logged σ := ⟨source, []⟩

/-- The characters that the source delivered. -/
def delivered (source : Logged σ) : List Char := source.log.flatMap Call.text

/-- The reply to the last call. -/
def lastReply? (source : Logged σ) : Option (Except Fault String) :=
  source.log.getLast?.map Call.reply

theorem delivered_append (source : σ) (log : List Call) (call : Call) :
    (Logged.mk source (log ++ [call])).delivered = log.flatMap Call.text ++ call.text := by
  simp [delivered]

theorem lastReply?_append (source : σ) (log : List Call) (call : Call) :
    (Logged.mk source (log ++ [call])).lastReply? = some call.reply := by
  simp [lastReply?]

/-- The log records what the source replies, and the reply is passed on as it is. -/
theorem read_eq [Source σ] {source rest : σ} {n : Nat} {reply : Except Fault String}
    (h : Source.read n source = (reply, rest)) (log : List Call) :
    Source.read n (Logged.mk source log) = (reply, ⟨rest, log ++ [⟨n, reply⟩]⟩) := by
  show ((Source.read n source).1, Logged.mk (Source.read n source).2
    (log ++ [⟨n, (Source.read n source).1⟩])) = _
  rw [h]

end Logged

/-- The source delivers the characters of a text one by one, and then it ends, or fails for a given
reason. -/
inductive Delivers {σ : Type} [Source σ] : σ → List Char → Option Fault → Prop
  /-- It ends. -/
  | ended {source rest : σ} (read : Source.read 1 source = (.ok "", rest)) :
      Delivers source [] none
  /-- It fails. -/
  | failed {source rest : σ} {fault : Fault} (read : Source.read 1 source = (.error fault, rest)) :
      Delivers source [] (some fault)
  /-- It delivers a character. -/
  | char {source rest : σ} {c : Char} {text : List Char} {ending : Option Fault}
      (read : Source.read 1 source = (.ok (String.singleton c), rest))
      (more : Delivers rest text ending) : Delivers source (c :: text) ending

/-- A text in memory is delivered one character at a time. -/
theorem delivers_textSource (text : List Char) : Delivers (TextSource.mk text) text none := by
  induction text with
  | nil => exact .ended rfl
  | cons c text ih => exact .char rfl ih

/-- Replies of one character each and a fault behind them. -/
theorem delivers_script (text : List Char) (fault : Fault) :
    Delivers (Script.mk (text.map (fun c => .ok (String.singleton c)) ++ [.error fault])) text
      (some fault) := by
  induction text with
  | nil => exact .failed rfl
  | cons c text ih => exact .char rfl ih

section

variable {σ : Type} [Source σ] {source rest : σ} {limit : Nat} {config : Config}

/-! ### Runs on a source, one call at a time -/

theorem drive_of_error {fault : Fault} (h : Source.read 1 source = (.error fault, rest)) :
    drive limit config source = (.error (config.interrupted fault), rest) := by
  rw [drive]
  split
  · rename_i hread
    rw [h] at hread
    cases hread
    rfl
  · rename_i hread
    rw [h] at hread
    cases hread

theorem drive_of_end (h : Source.read 1 source = (.ok "", rest)) :
    drive limit config source = (finish limit config, rest) := by
  rw [drive]
  split
  · rename_i hread
    rw [h] at hread
    cases hread
  · rename_i hread
    rw [h] at hread
    cases hread
    exact dif_pos String.toList_empty

theorem drive_of_text {text : String} (h : Source.read 1 source = (.ok text, rest))
    (htext : text.toList ≠ []) :
    drive limit config source =
      match settle limit ⟨text.toList.head?, config.position.afterAll text.toList⟩ config.tree
        config.frames with
      | .waiting tree frames =>
        drive limit ⟨tree, frames, config.position.afterAll text.toList⟩ rest
      | .accepted tree => (.ok tree, rest)
      | .rejected tree cause =>
        (.error ⟨cause, config.position.afterAll text.toList, tree⟩, rest) := by
  rw [drive]
  split
  · rename_i hread
    rw [h] at hread
    cases hread
  · rename_i hread
    rw [h] at hread
    cases hread
    exact dif_neg htext

theorem drive_of_char {c : Char} (h : Source.read 1 source = (.ok (String.singleton c), rest)) :
    drive limit config source =
      match settle limit ⟨some c, config.position.after c⟩ config.tree config.frames with
      | .waiting tree frames => drive limit ⟨tree, frames, config.position.after c⟩ rest
      | .accepted tree => (.ok tree, rest)
      | .rejected tree cause => (.error ⟨cause, config.position.after c, tree⟩, rest) := by
  have htext : (String.singleton c).toList = [c] := String.toList_singleton c
  rw [drive_of_text h (by rw [htext]; exact List.cons_ne_nil c [])]
  simp only [htext]
  rfl

/-- The log does not change the result: nothing looks at it while the run goes on. -/
theorem drive_logged (limit : Nat) (config : Config) (source : σ) (log : List Call) :
    (drive limit config (Logged.mk source log)).1 = (drive limit config source).1 := by
  -- a source that replies with characters gets smaller
  induction hn : Source.size source using Nat.strongRecOn generalizing source config log with
  | ind n ih =>
    cases hread : Source.read 1 source with
    | mk reply rest =>
      cases reply with
      | error fault => rw [drive_of_error hread, drive_of_error (Logged.read_eq hread log)]
      | ok text =>
        by_cases htext : text.toList = []
        · obtain rfl := String.toList_eq_nil_iff.mp htext
          rw [drive_of_end hread, drive_of_end (Logged.read_eq hread log)]
        · rw [drive_of_text hread htext, drive_of_text (Logged.read_eq hread log) htext]
          split
          · exact ih _ (hn ▸ Source.size_lt hread htext) _ _ _ rfl
          · rfl
          · rfl

end

/-! ### What a failure says -/

/-- What a cause says about the delivered characters, of which the first `m` are in the tree, and
about the last reply of the source. An empty reply ends the input. -/
def Cause.Accounts (delivered : List Char) (m : Nat) (reply : Except Fault String) : Cause → Prop
  | endOfInput _ => reply = .ok "" ∧ delivered.length ≤ m + 2
  | unexpectedCharacter found _ => delivered.length = m + 1 ∧ delivered[m]? = some found
  | multipleRepetitions .. | multipleExceptions .. | multiplePrimaries .. =>
    delivered.length = m + 1
  | noLiteral _ read => read.toList = delivered.drop m
  | unexpectedLiteral text span =>
    text = "/)" ∧ delivered[m]? = some '/' ∧ delivered[m + 1]? = some ')' ∧
      (places delivered)[m]? = some span.first ∧ (places delivered)[m + 1]? = some span.last
  | unreadable fault => reply = .error fault ∧ delivered.length ≤ m + 2
  | missingSpace _ | undelimitedTerm .. | nestingTooDeep _ => True

/-- What a failure says about the source that was read. -/
structure ParseError.Accounts {σ : Type} (error : ParseError) (source : Logged σ) : Prop where
  /-- The tree holds the characters that were delivered first. -/
  tree_eq : error.tree.text.toList = source.delivered.take error.tree.text.toList.length
  /-- There are at least as many of them as are in the tree. -/
  length_le : error.tree.text.toList.length ≤ source.delivered.length
  /-- At most three of them are not in the tree. -/
  le_length : source.delivered.length ≤ error.tree.text.toList.length + 3
  /-- The position is the one reached by reading what was delivered. -/
  position_eq : error.position = Position.start.afterAll source.delivered
  /-- The cause says what is wrong behind the tree. -/
  cause : ∃ reply, source.lastReply? = some reply ∧
    error.cause.Accounts source.delivered error.tree.text.toList.length reply

/-- What a cause explains about the rest of a text it says about the whole text. -/
theorem Cause.Explains.accounts {cause : Cause} {sight : Sight} {front read : List Char}
    {reply : Except Fault String}
    (h : cause.Explains sight (front ++ read) front.length read)
    (hreply : sight.ahead = none → reply = .ok "") :
    cause.Accounts (front ++ read) front.length reply := by
  cases cause with
  | endOfInput reading =>
    refine ⟨hreply h.1, ?_⟩
    rw [List.length_append]
    exact Nat.add_le_add_left h.2 _
  | unexpectedCharacter found expected =>
    obtain rfl : read = [found] := h
    exact ⟨List.length_append, by simp⟩
  | multipleRepetitions | multipleExceptions | multiplePrimaries =>
    rw [Explains] at h
    rw [Accounts, List.length_append, h]
  | noLiteral candidates field =>
    rw [Explains] at h
    rw [Accounts, h, List.drop_left]
  | unexpectedLiteral text span =>
    obtain ⟨htext, ⟨more, rfl⟩, hdenotes⟩ := h
    exact ⟨htext, by simp, by simp, hdenotes.first,
      hdenotes.last (List.cons_ne_nil _ _)⟩
  | unreadable fault => exact h.elim
  | missingSpace | undelimitedTerm | nestingTooDeep => trivial

/-- A tree with some of the delivered characters behind it. -/
theorem ParseError.accounts_of_append {σ : Type} {error : ParseError} {source : Logged σ}
    {read : List Char} (hread : error.tree.text.toList ++ read = source.delivered)
    (hlength : read.length ≤ 3)
    (hposition : error.position = Position.start.afterAll source.delivered)
    (hcause : ∃ reply, source.lastReply? = some reply ∧
      error.cause.Accounts source.delivered error.tree.text.toList.length reply) :
    error.Accounts source := by
  refine ⟨?_, ?_, ?_, hposition, hcause⟩
  · rw [← hread, List.take_left]
  · rw [← hread, List.length_append]
    exact Nat.le_add_right ..
  · rw [← hread, List.length_append]
    exact Nat.add_le_add_left hlength _

/-- A refused text, as a failure of the source that delivered it. -/
theorem Tree.Refused.accounts {σ : Type} {sight : Sight} {tree : Tree} {cause : Cause}
    {source : Logged σ} {reply : Except Fault String} {position : Position}
    (h : tree.Refused sight source.delivered cause) (hlast : source.lastReply? = some reply)
    (hreply : sight.ahead = none → reply = .ok "")
    (hposition : position = Position.start.afterAll source.delivered) :
    (ParseError.mk cause position tree).Accounts source := by
  obtain ⟨read, hread, hlength, hexplains⟩ := h
  refine ParseError.accounts_of_append hread hlength hposition ⟨reply, hlast, ?_⟩
  rw [← hread] at hexplains ⊢
  exact hexplains.accounts hreply

/-- Up to two of the characters that were taken are not in the tree when the source fails. -/
theorem Config.Between.accounts_interrupted {σ : Type} {config : Config} {whole : List Char}
    {source : Logged σ} {fault : Fault} (h : config.Between whole)
    (hlast : source.lastReply? = some (.error fault)) (hdelivered : source.delivered = whole) :
    (config.interrupted fault).Accounts source := by
  obtain ⟨held, hheld, hlength⟩ := h.standing.exists_held
  subst hdelivered
  refine ParseError.accounts_of_append hheld (Nat.le_succ_of_le hlength) h.position_eq
    ⟨_, hlast, rfl, ?_⟩
  rw [← hheld, List.length_append]
  exact Nat.add_le_add_left hlength _

/-- How a run on a source fails: its error accounts for the calls in the log, and what these
delivered is the beginning of the text. -/
theorem accounts_of_drive {σ : Type} [Source σ] {source : σ} {whole text : List Char}
    {ending : Option Fault} {limit : Nat} {config : Config} {log : List Call} {error : ParseError}
    (hsource : Delivers source text ending) (h : config.Between whole)
    (hlog : log.flatMap Call.text = whole)
    (herror : (drive limit config (Logged.mk source log)).1 = .error error) :
    error.Accounts (drive limit config (Logged.mk source log)).2 ∧
      (drive limit config (Logged.mk source log)).2.delivered <+: whole ++ text := by
  -- the induction is on what the source still delivers; the log holds what it has delivered
  induction hsource generalizing config whole log with
  | @ended source rest read =>
    have hdelivered : (Logged.mk rest (log ++ [⟨1, .ok ""⟩])).delivered = whole := by
      rw [Logged.delivered_append]
      exact (List.append_nil _).trans hlog
    have hkeeps := h.keeps_settle_atEnd limit
    rw [drive_of_end (Logged.read_eq read log)] at herror ⊢
    rw [hdelivered, List.append_nil]
    refine ⟨?_, List.prefix_rfl⟩
    replace herror : finish limit config = .error error := herror
    rw [finish] at herror
    split at herror
    · cases herror
    · cases herror
    · rename_i hsettle
      cases herror
      rw [hsettle] at hkeeps
      exact Tree.Refused.accounts (hdelivered.symm ▸ hkeeps) (Logged.lastReply?_append ..)
        (fun _ => rfl) (hdelivered.symm ▸ h.position_eq)
  | @failed source rest fault read =>
    have hdelivered : (Logged.mk rest (log ++ [⟨1, .error fault⟩])).delivered = whole := by
      rw [Logged.delivered_append]
      exact (List.append_nil _).trans hlog
    rw [drive_of_error (Logged.read_eq read log)] at herror ⊢
    obtain rfl : config.interrupted fault = error := Except.error.inj herror
    obtain ⟨held, hheld, hlength⟩ := h.standing.exists_held
    exact ⟨h.accounts_interrupted (Logged.lastReply?_append ..) hdelivered,
      ⟨[], by rw [hdelivered]⟩⟩
  | @char source rest c text ending read _ ih =>
    have hdelivered :
        (Logged.mk rest (log ++ [⟨1, .ok (String.singleton c)⟩])).delivered = whole ++ [c] := by
      rw [Logged.delivered_append, hlog]
      exact congrArg (whole ++ ·) (String.toList_singleton c)
    have hkeeps := h.keeps_settle limit c
    rw [drive_of_char (Logged.read_eq read log)] at herror ⊢
    cases hsettle : settle limit ⟨some c, config.position.after c⟩ config.tree config.frames with
    | waiting tree frames =>
      rw [hsettle] at hkeeps herror
      have hrest := ih (h.next hkeeps) (by rw [← hdelivered]; rfl) herror
      rw [List.append_assoc] at hrest
      exact hrest
    | accepted tree =>
      rw [hsettle] at herror
      cases herror
    | rejected tree cause =>
      rw [hsettle] at hkeeps herror
      cases herror
      refine ⟨Tree.Refused.accounts (hdelivered.symm ▸ hkeeps) (Logged.lastReply?_append ..)
        (fun hnone => by cases hnone) (hdelivered.symm ▸ (h.reads_some c).here_eq), ?_⟩
      refine ⟨text, ?_⟩
      show (Logged.mk rest _).delivered ++ text = _
      rw [hdelivered, List.append_assoc, List.singleton_append]

/-- **Failures.** If the reading of a source fails, the tree holds all but the last few of the
characters that were delivered, and the failure says what is wrong with these. -/
theorem accounts_of_parse {σ : Type} [Source σ] {source : σ} {text : List Char}
    {ending : Option Fault} {maxNesting : Nat} {error : ParseError}
    (hsource : Delivers source text ending) (herror : parse source maxNesting = .error error) :
    error.Accounts (parseFrom (Logged.fresh source) maxNesting).2 ∧
      (parseFrom (Logged.fresh source) maxNesting).2.delivered <+: text := by
  refine accounts_of_drive hsource .initial rfl ?_
  rw [drive_logged]
  exact herror

/-- A closer behind the definitions of a product, and a source that fails behind half an opener. -/
theorem accounts_of_parse_held :
    (∃ error, parse (TextSource.mk "x=a/);".toList) 3 = .error error ∧
      error.Accounts (parseFrom (Logged.fresh (TextSource.mk "x=a/);".toList)) 3).2) ∧
    ∃ error, parse (Script.mk ([.ok "x", .ok "=", .ok "("] ++ [.error ⟨.other, "lost"⟩])) 3 =
        .error error ∧
      error.Accounts (parseFrom (Logged.fresh
        (Script.mk ([.ok "x", .ok "=", .ok "("] ++ [.error ⟨.other, "lost"⟩]))) 3).2 := by
  constructor
  · have hfails : (parse (TextSource.mk "x=a/);".toList) 3).isOk = false := by decide +kernel
    cases h : parse (TextSource.mk "x=a/);".toList) 3 with
    | ok tree => cases h ▸ hfails
    | error error => exact ⟨error, rfl, (accounts_of_parse (delivers_textSource _) h).1⟩
  · have hfails : (parse (Script.mk
        ([.ok "x", .ok "=", .ok "("] ++ [.error ⟨.other, "lost"⟩])) 3).isOk = false := by
      decide +kernel
    cases h : parse (Script.mk ([.ok "x", .ok "=", .ok "("] ++ [.error ⟨.other, "lost"⟩])) 3 with
    | ok tree => cases h ▸ hfails
    | error error =>
      exact ⟨error, rfl, (accounts_of_parse (delivers_script ['x', '=', '('] ⟨.other, "lost"⟩) h).1⟩

end LosslessEbnf
