import LosslessEbnf.Proofs.Accepting
import LosslessEbnf.Proofs.Residual

/-!
# Completeness

What is derived from the grammar is accepted by the machine. A derivation tells the machine what to
do: for each rule there is a lemma which says that the machine gets over the text of the rule if it
gets over the texts of its parts.

## Main Definitions

* `EndsTerm`, `EndsDefinitions` — where terms and definitions may end
* `Symbol.Driven` — the machine gets over a text that is derived from a symbol

## Main Statements

* `driven_of_derives` — the machine gets over every text that is derived
* `acceptsFrom_of_derives` — a text that is derived from the grammar is accepted

## Design Notes

White space in front of a production is skipped by the production around it as well as by the
production itself, so most statements are about the text behind it.
-/

namespace LosslessEbnf

/-- A term ends in front of the character. -/
structure EndsTerm (c : Char) : Prop where
  /-- It is not white space. -/
  space : isSpace c = false
  /-- No repetition begins with it. -/
  digit : isDigit c = false
  /-- No primary begins with it. -/
  primary : beginsPrimary c = false
  /-- No exception begins with it. -/
  dash : c ≠ '-'

/-- No term begins with the character. -/
theorem EndsTerm.not_begins {c : Char} (h : EndsTerm c) :
    ¬(isDigit c || beginsPrimary c) = true := by
  rw [h.digit, h.primary]
  exact Bool.false_ne_true

/-- The characters with which the marks behind definitions begin, all but the closer that they hand
over. -/
def Marks.endings : List Char := [';', '.', '\x7d', ']', ':', ')']

/-- Terms end in front of all marks between and behind definitions, since none of these begins a
component. -/
theorem endsTerm_of_mem {c : Char} (h : c ∈ [',', '|', '!', '/'] ++ Marks.endings) :
    EndsTerm c := by
  have hall : ([',', '|', '!', '/'] ++ Marks.endings).all (fun c =>
      Marks.chars.contains c && (!Marks.primaryStarts.contains c && c != '-')) = true := by decide
  have hc := List.all_eq_true.mp hall c h
  rw [Bool.and_eq_true, Bool.and_eq_true, List.contains_iff_mem, Bool.not_eq_true',
    bne_iff_ne] at hc
  obtain ⟨hmark, hstart, hdash⟩ := hc
  exact ⟨Marks.isSpace_eq_false hmark, Marks.isDigit_eq_false hmark,
    (Marks.beginsPrimary_eq hmark).trans hstart, hdash⟩

/-- The marks behind definitions begin neither with a comma nor with a separator. -/
theorem Marks.ends_of_mem {c : Char} (h : c ∈ endings) :
    EndsTerm c ∧ c ≠ ',' ∧ isSeparator c = false := by
  have hall : endings.all (fun c => c != ',' && !isSeparator c) = true := by decide
  have hc := List.all_eq_true.mp hall c h
  rw [Bool.and_eq_true, Bool.not_eq_true', bne_iff_ne] at hc
  exact ⟨endsTerm_of_mem (List.mem_append_right _ h), hc⟩

/-- Definitions end in front of the text, and it is accepted. It may be a closer that they hand
over. -/
def EndsDefinitions (limit : Nat) (below : List Frame) (r : List Char) : Prop :=
  (∃ c t, r = c :: t ∧ c ∈ Marks.endings ∧ AcceptsFrom limit below r) ∨
    ∃ t, r = '/' :: ')' :: t ∧ ∀ closer, AcceptsFrom limit (handOver closer below) t

/-- The machine gets over a text that is derived from the symbol, up to a text that is accepted. -/
def Symbol.Driven (limit n : Nat) : Symbol → List Char → List Char → Prop
  | .text, s, _ => n ≤ limit → AcceptsFrom limit [.grammar true] (skipSpace s)
  | .comment, s, r => ∃ t, s = '(' :: '*' :: t ∧ t ≠ [] ∧
      ∀ below id, nesting below + n ≤ limit → AcceptsFrom limit below r →
        nesting below < limit ∧ AcceptsFrom limit (.comment id none .body :: below) t
  | .commentRest, s, r => s ≠ [] ∧
      ∀ below id run, nesting below + 1 + n ≤ limit → AcceptsFrom limit below r →
        AcceptsFrom limit (.comment id run .body :: below) s
  | .product, s, r => ∃ c t, s = c :: t ∧ isLetter c = true ∧
      ∀ below here tree parent, nesting below + n ≤ limit → AcceptsFrom limit below r →
        (openProduct ⟨some c, here⟩ tree below parent c).Leads limit s
  | .definitions, s, r =>
      ∀ below id, nesting below + n ≤ limit → EndsDefinitions limit below r →
        AcceptsFrom limit (.definitions id .start :: below) (skipSpace s)
  | .definition, s, r =>
      ∀ below id start c t, nesting below + n ≤ limit → r = c :: t → EndsTerm c → c ≠ ',' →
        AcceptsFrom limit below r →
        AcceptsFrom limit (.definition id start none :: below) (skipSpace s)
  | .term, s, r => ∃ d u, s = d :: u ∧ (isDigit d || beginsPrimary d) = true ∧
      ∀ below id c t, nesting below + n ≤ limit → r = c :: t → EndsTerm c →
        AcceptsFrom limit below r → AcceptsFrom limit (.term id {} false :: below) s
  | .components used, s, r =>
      ∀ below id parts c t, parts.used = used → nesting below + n ≤ limit → r = c :: t →
        EndsTerm c → AcceptsFrom limit below r →
        AcceptsFrom limit (.term id parts false :: below) (skipSpace s)
  | .repetition, s, r => ∃ c t, s = c :: t ∧ isDigit c = true ∧
      ∀ below number id, AcceptsFrom limit below r →
        AcceptsFrom limit (.run .number number :: .repetition id :: below) t
  | .exception, s, r => ∃ t, s = '-' :: t ∧
      ∀ below id term, nesting below + n ≤ limit → AcceptsFrom limit below r →
        AcceptsFrom limit (.exception id term none :: below) t
  | .primary, s, r => ∃ c t, s = c :: t ∧ beginsPrimary c = true ∧
      ∀ below here tree parent, nesting below + n ≤ limit → AcceptsFrom limit below r →
        (openPrimary limit ⟨some c, here⟩ tree below parent c).Leads limit s

section

variable {limit n : Nat} {c : Char} {s t r : List Char}

/-! ### Comments -/

/-- A comment is read with its opening mark first. One more level is open then, so what is left of
the limit is what its rest needs. -/
theorem driven_comment (rest : Symbol.commentRest.Driven limit n s r) :
    Symbol.comment.Driven limit (n + 1) ('(' :: '*' :: s) r := by
  refine ⟨s, rfl, rest.1, fun below id hn h => ⟨?_, rest.2 below id none ?_ h⟩⟩
  · omega
  · omega

/-- The closing mark ends the comment, and the machine is where it was in front of it. -/
theorem driven_comment_end : Symbol.commentRest.Driven limit n ('*' :: ')' :: r) r := by
  refine ⟨nofun, fun below id run _ h => acceptsFrom_of_step fun here tree => ?_⟩
  exact acceptsFrom_of_step fun here tree => h

/-- A comment in a comment is got over like one in a text, and then the outer one goes on. -/
theorem driven_comment_nested (first : Symbol.comment.Driven limit n s t)
    (more : Symbol.commentRest.Driven limit n t r) : Symbol.commentRest.Driven limit n s r := by
  obtain ⟨u, rfl, hne, hfirst⟩ := first
  refine ⟨nofun, fun below id run hn h => ?_⟩
  have hnesting : nesting (.comment id none .body :: below) = nesting below + 1 :=
    nesting_cons_of_nests rfl
  obtain ⟨c, u, rfl⟩ := List.exists_cons_of_ne_nil hne
  -- the `(`, the `*`, and the step at the next character that begins the inner comment
  refine acceptsFrom_of_step fun here tree => ?_
  refine acceptsFrom_of_step fun here' tree => ?_
  refine acceptsFrom_of_step fun _ tree => ?_
  obtain ⟨hlimit, hinner⟩ := hfirst (.comment id none .body :: below) tree.size (hnesting ▸ hn)
    (more.2 below id none hn h)
  rw [hnesting] at hlimit
  dsimp only [List.tail_cons, List.head?_cons, step, stepComment]
  rw [nesting_cons_of_nests rfl, if_neg (Nat.not_le.mpr hlimit)]
  exact hinner

/-- A character of a comment is added to it. If it could begin a mark, the one behind it shows that
it does not, and only then both are settled. -/
theorem driven_comment_char (no_end : ¬['*', ')'] <+: c :: s) (no_comment : ¬['(', '*'] <+: c :: s)
    (more : Symbol.commentRest.Driven limit n s r) :
    Symbol.commentRest.Driven limit n (c :: s) r := by
  obtain ⟨hne, hmore⟩ := more
  refine ⟨List.cons_ne_nil c s, fun below id run hn h => acceptsFrom_of_step fun here tree => ?_⟩
  rw [List.head?_cons, step, stepComment]
  dsimp only
  split
  · -- the character may begin a mark, and the one behind it shows that it does not
    obtain ⟨d, s, rfl⟩ := List.exists_cons_of_ne_nil hne
    refine acceptsFrom_of_step fun here' tree => ?_
    rw [List.tail_cons, List.head?_cons, step, stepComment]
    dsimp only
    have hend : ¬(c = '*' ∧ d = ')') := by
      rintro ⟨rfl, rfl⟩
      exact no_end (List.prefix_append ['*', ')'] s)
    have hcomment : ¬(c = '(' ∧ d = '*') := by
      rintro ⟨rfl, rfl⟩
      exact no_comment (List.prefix_append ['(', '*'] s)
    rw [if_neg hend, if_neg hcomment]
    exact hmore below id _ hn h
  · exact hmore below id _ hn h

/-! ### Primaries -/

/-- A name goes as far as there are letters, digits and white space. It ends in front of a character
that is none of them. -/
theorem driven_primary_name {name : List Char} (letter : isLetter c = true)
    (parts : ∀ x ∈ name, isNamePart x = true) (ends : r.head?.any isNamePart = false) :
    Symbol.primary.Driven limit n (c :: (name ++ r)) r := by
  have hbegins : beginsPrimary c = true := by
    rw [beginsPrimary, letter, Bool.true_or]
  refine ⟨c, name ++ r, rfl, hbegins, fun below here tree parent _ h => ?_⟩
  rw [openPrimary, if_pos letter, expectIdentifier_of_isLetter letter]
  exact acceptsFrom_identifier parts ends h

/-- A text between marks is read from its first mark, and from there to the second one. -/
theorem leads_openQuoted {below : List Frame} {here : Position} {tree : Tree} {parent : NodeId}
    {inner : List Char} (form : Quoted) (hinner : ∀ x ∈ inner, x ≠ form.mark)
    (h : AcceptsFrom limit below r) :
    (openQuoted ⟨some form.mark, here⟩ tree below parent form).Leads limit
      (form.mark :: (inner ++ form.mark :: r)) := by
  refine leads_openLiteral_single (Marks.plain_singleton _) List.mem_cons_self
    (String.toList_singleton _) ?_
  exact acceptsFrom_of_step fun here tree => acceptsFrom_quoted hinner h

/-- A quoted text ends with the first quote like the one it began with, as there is none in
between. -/
theorem driven_primary_quoted {q : Char} {inner : List Char} (mark : isQuote q = true ∨ q = '?')
    (free : ∀ x ∈ inner, x ≠ q) : Symbol.primary.Driven limit n (q :: (inner ++ q :: r)) r := by
  rcases mark with hquote | rfl
  · have hstart := Marks.mem_of_isQuote hquote
    refine ⟨q, _, rfl, Marks.beginsPrimary_of_mem hstart, fun below here tree parent _ h => ?_⟩
    rw [openPrimary, if_neg (ne_true_of_eq_false (Marks.isLetter_of_start hstart)), if_pos hquote,
      expectTerminal_of_isQuote hquote]
    exact leads_openQuoted (.terminal q) free h
  · have hstart : '?' ∈ Marks.primaryStarts := by decide
    refine ⟨'?', _, rfl, Marks.beginsPrimary_of_mem hstart, fun below here tree parent _ h => ?_⟩
    rw [openPrimary, if_neg (ne_true_of_eq_false (Marks.isLetter_of_start hstart)),
      if_neg (by decide), if_neg (by decide), if_neg (by decide), if_pos rfl]
    exact leads_openQuoted .special free h

/-- The closers that are looked for are marks behind definitions. -/
theorem Bracket.exists_of_mem_closers {b : Bracket} {closer : String} (h : closer ∈ b.closers) :
    ∃ c more, closer.toList = c :: more ∧ c ∈ Marks.endings := by
  cases b with
  | repeated =>
    obtain rfl := List.mem_singleton.mp h
    exact ⟨'\x7d', [], by decide, by decide⟩
  | optional =>
    rcases List.mem_cons.mp h with rfl | h
    · exact ⟨']', [], by decide, by decide⟩
    · obtain rfl := List.mem_singleton.mp h
      exact ⟨':', [')'], by decide, by decide⟩
  | grouped =>
    obtain rfl := List.mem_singleton.mp h
    exact ⟨')', [], by decide, by decide⟩

/-- Only repeats have a closer that is not looked for. -/
theorem Bracket.mem_closers_or {b : Bracket} {closer : String} (h : closer ∈ b.allClosers) :
    closer ∈ b.closers ∨ b = .repeated ∧ closer = "/)" := by
  cases b with
  | repeated =>
    rcases List.mem_cons.mp h with rfl | h
    · exact Or.inl List.mem_cons_self
    · exact Or.inr ⟨rfl, List.mem_singleton.mp h⟩
  | optional => exact Or.inl h
  | grouped => exact Or.inl h

/-- A closer has at least one character. -/
theorem Bracket.toList_ne_nil {b : Bracket} {closer : String} (h : closer ∈ b.allClosers) :
    closer.toList ≠ [] := by
  rcases Bracket.mem_closers_or h with hmem | ⟨-, rfl⟩
  · obtain ⟨c, more, hread, -⟩ := Bracket.exists_of_mem_closers hmem
    rw [hread]
    exact List.cons_ne_nil c more
  · decide

/-- A closer ends definitions, and with it the bracket: it is read as a mark, or handed over. -/
theorem endsDefinitions_closer {b : Bracket} {id : NodeId} {closer : String} {below : List Frame}
    (hcloser : closer ∈ b.allClosers) (h : AcceptsFrom limit below r) :
    EndsDefinitions limit (.bracket b id (.body none) :: below) (closer.toList ++ r) := by
  rcases Bracket.mem_closers_or hcloser with hmem | ⟨rfl, rfl⟩
  · obtain ⟨c, more, hread, hc⟩ := Bracket.exists_of_mem_closers hmem
    rw [hread]
    refine Or.inl ⟨c, more ++ r, rfl, hc, ?_⟩
    refine acceptsFrom_of_step fun here tree => ?_
    exact leads_openLiteral b.plain_closers hmem hread (acceptsFrom_closing h)
  · refine Or.inr ⟨r, rfl, fun closer => ?_⟩
    exact acceptsFrom_of_step fun here tree => h

/-- A bracket whose opener was read goes on with white space, its list and one of its closers, and
with what follows it. -/
theorem acceptsFrom_bracket {b : Bracket} {below : List Frame} {id opening : NodeId}
    {blank : List Char} {closer : String}
    (spaces : Blank blank) (body : Symbol.definitions.Driven limit n s (closer.toList ++ r))
    (closes : closer ∈ b.allClosers) (hn : nesting below + 1 + n ≤ limit)
    (h : AcceptsFrom limit below r) :
    AcceptsFrom limit (.bracket b id (.opened opening) :: below) (blank ++ s) := by
  refine acceptsFrom_of_skipSpace rfl ?_
  rw [skipSpace_append spaces]
  refine acceptsFrom_of_step fun here tree => ?_
  dsimp only [step, stepBracket]
  rw [if_neg (ne_true_of_eq_false any_isSpace_skipSpace)]
  refine body _ _ ?_ (endsDefinitions_closer closes h)
  rw [nesting_cons_of_nests rfl]
  exact hn

/-- A bracket that begins with a brace or a square bracket is let in within the limit, and its
opener is read. -/
theorem leads_openBracket {b : Bracket} {below : List Frame} {here : Position} {tree : Tree}
    {parent : NodeId} {blank more : List Char} {opener closer : String}
    (opens : opener ∈ b.openers) (hread : opener.toList = c :: more)
    (spaces : Blank blank) (body : Symbol.definitions.Driven limit n s (closer.toList ++ r))
    (closes : closer ∈ b.allClosers) (hn : nesting below + 1 + n ≤ limit)
    (h : AcceptsFrom limit below r) :
    (openBracket limit ⟨some c, here⟩ tree below parent b).Leads limit
      (c :: (more ++ (blank ++ s))) := by
  rw [openBracket, if_neg (by omega)]
  exact leads_openLiteral b.plain_openers opens hread (acceptsFrom_bracket spaces body closes hn h)

/-- A bracket is read from behind an opener that was read already. -/
theorem leads_attachBracket {b : Bracket} {below : List Frame} {here : Position} {tree : Tree}
    {parent : NodeId} {opener : Span} {ahead : Option Char} {blank : List Char} {closer : String}
    (spaces : Blank blank) (body : Symbol.definitions.Driven limit n s (closer.toList ++ r))
    (closes : closer ∈ b.allClosers) (hn : nesting below + 1 + n ≤ limit)
    (h : AcceptsFrom limit below r) :
    (attachBracket limit ⟨ahead, here⟩ tree below parent b opener).Leads limit (blank ++ s) := by
  rw [attachBracket, if_neg (by omega)]
  exact acceptsFrom_bracket spaces body closes hn h

/-- A parenthesis is read up to the end of the bracket that it opens: with a slash or a colon behind
it as an opener of two characters, else as that of a group. -/
theorem acceptsFrom_paren {b : Bracket} {below : List Frame} {parent : NodeId} {start : Position}
    {blank : List Char} {closer : String}
    (no_opener : b = .grouped → (blank ++ s).head? ≠ some '/' ∧ (blank ++ s).head? ≠ some ':')
    (spaces : Blank blank) (hne : s ≠ [])
    (body : Symbol.definitions.Driven limit n s (closer.toList ++ r))
    (closes : closer ∈ b.allClosers) (hn : nesting below + 1 + n ≤ limit)
    (h : AcceptsFrom limit below r) :
    AcceptsFrom limit (.paren parent start :: below)
      (b.roundOpener.toList.tail ++ (blank ++ s)) := by
  have hopener : ∀ span, AcceptsFrom limit (.opener b parent span :: below) (blank ++ s) :=
    fun span => acceptsFrom_of_step fun here tree => leads_attachBracket spaces body closes hn h
  refine acceptsFrom_of_step fun here tree => ?_
  cases b with
  | repeated => exact hopener _
  | optional => exact hopener _
  | grouped =>
    -- the `(` of a group is known by the character behind it, so there has to be one
    obtain ⟨hslash, hcolon⟩ := no_opener rfl
    obtain ⟨c, u, hcons⟩ :=
      List.exists_cons_of_ne_nil (List.append_ne_nil_of_right_ne_nil blank hne)
    rw [hcons, List.head?_cons] at hslash hcolon
    show (stepParen limit ⟨(blank ++ s).head?, here⟩ tree below parent start).Leads limit
      (blank ++ s)
    rw [hcons, List.head?_cons, stepParen]
    dsimp only
    rw [if_neg (fun hc => hslash (congrArg some hc)), if_neg (fun hc => hcolon (congrArg some hc)),
      ← hcons]
    exact leads_attachBracket spaces body closes hn h

/-- An opener begins with a `(`, or it is a single character of its own. -/
theorem Bracket.opener_cases {b : Bracket} {opener : String} (h : opener ∈ b.openers) :
    opener = b.roundOpener ∨
      ∃ c, opener.toList = [c] ∧ (b = .repeated ∧ c = '\x7b' ∨ b = .optional ∧ c = '[') := by
  cases b with
  | repeated =>
    rcases List.mem_cons.mp h with rfl | h
    · exact Or.inr ⟨'\x7b', by decide, Or.inl ⟨rfl, rfl⟩⟩
    · exact Or.inl (List.mem_singleton.mp h)
  | optional =>
    rcases List.mem_cons.mp h with rfl | h
    · exact Or.inl rfl
    · obtain rfl := List.mem_singleton.mp h
      exact Or.inr ⟨'[', by decide, Or.inr ⟨rfl, rfl⟩⟩
  | grouped => exact Or.inl (List.mem_singleton.mp h)

/-- A brace and a square bracket each open just one kind of bracket. -/
theorem openPrimary_eq_openBracket {b : Bracket} {sight : Sight} {tree : Tree}
    {frames : List Frame} {parent : NodeId}
    (h : b = .repeated ∧ c = '\x7b' ∨ b = .optional ∧ c = '[') :
    openPrimary limit sight tree frames parent c =
      openBracket limit sight tree frames parent b := by
  rcases h with ⟨rfl, rfl⟩ | ⟨rfl, rfl⟩
  · rw [openPrimary, if_neg (ne_true_of_eq_false (Marks.isLetter_eq_false (by decide))),
      if_neg (by decide), if_pos rfl]
  · rw [openPrimary, if_neg (ne_true_of_eq_false (Marks.isLetter_eq_false (by decide))),
      if_neg (by decide), if_neg (by decide), if_pos rfl]

/-- What a parenthesis opens is not known yet, so the machine only notes where it stands. -/
theorem openPrimary_paren {sight : Sight} {tree : Tree} {frames : List Frame} {parent : NodeId} :
    openPrimary limit sight tree frames parent '(' =
      .next tree (.paren parent sight.here :: frames) := by
  rw [openPrimary, if_neg (ne_true_of_eq_false (Marks.isLetter_eq_false (by decide))),
    if_neg (by decide), if_neg (by decide), if_neg (by decide), if_neg (by decide), if_pos rfl]

/-- A bracket is its opener, white space, a list and one of its closers. A grouped one may not look
like another one that begins with a parenthesis, and it takes one level. -/
theorem driven_primary_bracket {b : Bracket} {opener closer : String} {blank : List Char}
    (opens : opener ∈ b.openers)
    (no_opener : b = .grouped → (blank ++ s).head? ≠ some '/' ∧ (blank ++ s).head? ≠ some ':')
    (spaces : Blank blank) (hne : s ≠ [])
    (body : Symbol.definitions.Driven limit n s (closer.toList ++ r))
    (closes : closer ∈ b.allClosers) :
    Symbol.primary.Driven limit (n + 1) (opener.toList ++ (blank ++ s)) r := by
  rcases Bracket.opener_cases opens with rfl | ⟨c, hread, hc⟩
  · have hcons : b.roundOpener.toList = '(' :: b.roundOpener.toList.tail := by cases b <;> decide
    rw [hcons]
    refine ⟨'(', _, rfl, Marks.beginsPrimary_of_mem (by decide), ?_⟩
    intro below here tree parent hn h
    rw [openPrimary_paren]
    exact acceptsFrom_paren no_opener spaces hne body closes (by omega) h
  · have hbegins : beginsPrimary c = true := by
      rcases hc with ⟨-, rfl⟩ | ⟨-, rfl⟩ <;> exact Marks.beginsPrimary_of_mem (by decide)
    rw [hread]
    refine ⟨c, blank ++ s, rfl, hbegins, fun below here tree parent hn h => ?_⟩
    rw [openPrimary_eq_openBracket hc]
    exact leads_openBracket opens hread spaces body closes (by omega) h

/-! ### Terms -/

theorem star_mem_chars : '*' ∈ Marks.chars := by decide

/-- A repetition is a number up to its last digit, white space, and a star. The number ends there
because neither white space nor a star is a digit. -/
theorem driven_repetition {digits blank : List Char} (digit : isDigit c = true)
    (all_digits : ∀ x ∈ digits, isDigit x = true) (spaces : Blank blank) :
    Symbol.repetition.Driven limit n (c :: (digits ++ (blank ++ '*' :: r))) r := by
  refine ⟨c, _, rfl, digit, fun below number id h => acceptsFrom_run all_digits ?_ ?_⟩
  · -- the number ends in front of white space or in front of the `*`
    cases blank with
    | nil => exact Marks.isDigit_eq_false star_mem_chars
    | cons d blank =>
      have hspace : isSpace d = true := spaces d List.mem_cons_self
      show isDigit d = false
      cases hdigit : isDigit d with
      | false => rfl
      | true =>
        rw [isSpace_eq_false_of_isDigit hdigit] at hspace
        cases hspace
  · refine acceptsFrom_of_skipSpace rfl ?_
    rw [skipSpace_append spaces, skipSpace_cons_of_neg (Marks.isSpace_eq_false star_mem_chars)]
    refine acceptsFrom_of_step fun here tree => ?_
    dsimp only [List.head?_cons, step, stepRepetition, Option.any_some]
    rw [if_neg (ne_true_of_eq_false (Marks.isSpace_eq_false star_mem_chars))]
    exact leads_openLiteral_single (Marks.plain_singleton '*') List.mem_cons_self (by decide)
      (acceptsFrom_closing h)

/-- An exception ends where neither a primary nor white space can begin, and its term goes on
there. -/
theorem acceptsFrom_exception {below : List Frame} {id term : NodeId} {primary : Option NodeId}
    (ends : Dialect.eager.endsException r.head? = true) (h : AcceptsFrom limit below r) :
    AcceptsFrom limit (.exception id term primary :: below) r := by
  refine acceptsFrom_of_step fun here tree => ?_
  have hend : ∀ tree, (endException ⟨r.head?, here⟩ tree below id primary).Leads limit r := by
    intro tree
    cases primary <;> exact h
  dsimp only [step, stepException]
  cases hr : r.head? with
  | none =>
    rw [hr] at hend
    exact hend _
  | some c =>
    rw [hr] at hend ends
    obtain ⟨hprimary, hspace⟩ := Dialect.endsException_eager_some.mp ends
    dsimp only
    rw [if_neg (ne_true_of_eq_false hspace), if_neg (ne_true_of_eq_false hprimary)]
    exact hend _

/-- In front of the end of an exception there is no white space. -/
theorem skipSpace_eq_of_endsException (ends : Dialect.eager.endsException r.head? = true) :
    skipSpace r = r := by
  cases r with
  | nil => rfl
  | cons c r => exact skipSpace_cons_of_neg (Dialect.endsException_eager_some.mp ends).2

/-- An exception may have nothing behind its dash but white space. What follows must not look like a
part of it. -/
theorem driven_exception_empty {blank : List Char} (spaces : Blank blank)
    (ends : Dialect.eager.endsException r.head? = true) :
    Symbol.exception.Driven limit n ('-' :: (blank ++ r)) r := by
  refine ⟨blank ++ r, rfl, fun below id term _ h => ?_⟩
  refine acceptsFrom_of_skipSpace rfl ?_
  rw [skipSpace_append spaces, skipSpace_eq_of_endsException ends]
  exact acceptsFrom_exception ends h

/-- An exception takes the primary behind its dash and the white space on both sides of it. -/
theorem driven_exception_primary {before behind : List Char} (spaces_before : Blank before)
    (first : Symbol.primary.Driven limit n s (behind ++ r)) (spaces_behind : Blank behind)
    (ends : Dialect.eager.endsException r.head? = true) :
    Symbol.exception.Driven limit n ('-' :: (before ++ s)) r := by
  obtain ⟨c, t, rfl, hbegins, hprimary⟩ := first
  have hspace := isSpace_eq_false_of_beginsPrimary hbegins
  refine ⟨before ++ c :: t, rfl, fun below id term hn h => ?_⟩
  refine acceptsFrom_of_skipSpace rfl ?_
  rw [skipSpace_append spaces_before, skipSpace_cons_of_neg hspace]
  refine acceptsFrom_of_step fun here tree => ?_
  have hrest : ∀ held,
      AcceptsFrom limit (.exception id term (some held) :: below) (behind ++ r) := by
    intro held
    refine acceptsFrom_of_skipSpace rfl ?_
    rw [skipSpace_append spaces_behind, skipSpace_eq_of_endsException ends]
    exact acceptsFrom_exception ends h
  rw [List.head?_cons, step, stepException]
  dsimp only
  rw [if_neg (ne_true_of_eq_false hspace), if_pos hbegins]
  refine hprimary _ _ _ _ ?_ (hrest _)
  rw [nesting_cons_of_not_nests rfl]
  exact hn

theorem dash_mem_chars : '-' ∈ Marks.chars := by decide

/-- A term ends in front of what cannot be a part of it, and then the production below goes on
there. -/
theorem driven_components_end {used : Used} : (Symbol.components used).Driven limit n r r := by
  rintro below id parts c t - - rfl hends h
  have hend : ∀ here tree, (endTerm ⟨some c, here⟩ tree below id parts).Leads limit (c :: t) := by
    intro here tree
    unfold endTerm
    split <;> exact h
  rw [skipSpace_cons_of_neg hends.space]
  refine acceptsFrom_of_step fun here tree => ?_
  dsimp only [List.head?_cons, step, stepTerm]
  rw [if_neg Bool.false_ne_true, if_neg (ne_true_of_eq_false hends.space),
    if_neg (ne_true_of_eq_false hends.digit), if_neg hends.dash,
    if_neg (ne_true_of_eq_false hends.primary)]
  exact hend here _

/-- White space between the parts of a term belongs to the term, which goes on behind it. -/
theorem driven_components_space {used : Used} (space : isSpace c = true)
    (more : (Symbol.components used).Driven limit n s r) :
    (Symbol.components used).Driven limit n (c :: s) r := by
  intro below id parts d t hused hn hr hends h
  rw [skipSpace_cons_of_pos space]
  exact more below id parts d t hused hn hr hends h

/-- A term goes on with a repetition if it has had none, and cannot have another one then. -/
theorem driven_components_repetition {used : Used} (unused : used.repetition = false)
    (first : Symbol.repetition.Driven limit n s t)
    (more : (Symbol.components { used with repetition := true }).Driven limit n t r) :
    (Symbol.components used).Driven limit n s r := by
  obtain ⟨c, u, rfl, hdigit, hrepetition⟩ := first
  rintro below id parts d v rfl hn hr hends h
  have hspace := isSpace_eq_false_of_isDigit hdigit
  have hnone : parts.repetition = none :=
    Option.not_isSome_iff_eq_none.mp (ne_true_of_eq_false unused)
  rw [skipSpace_cons_of_neg hspace]
  refine acceptsFrom_of_step fun here tree => ?_
  dsimp only [List.head?_cons, step, stepTerm]
  rw [if_neg Bool.false_ne_true, if_neg (ne_true_of_eq_false hspace), if_pos hdigit, hnone]
  dsimp only
  rw [openRepetition_of_isDigit hdigit]
  refine hrepetition _ _ _ (acceptsFrom_of_skipSpace rfl ?_)
  exact more below id _ d v rfl hn hr hends h

/-- A term goes on with a primary if it has had none, and if the first character of it is not taken
for a repetition. -/
theorem driven_components_primary {used : Used} (unused : used.primary = false)
    (opens : Dialect.eager.opensTerm s.head? = true) (first : Symbol.primary.Driven limit n s t)
    (more : (Symbol.components { used with primary := true }).Driven limit n t r) :
    (Symbol.components used).Driven limit n s r := by
  obtain ⟨c, u, rfl, hbegins, hprimary⟩ := first
  rintro below id parts d v rfl hn hr hends h
  have hspace := isSpace_eq_false_of_beginsPrimary hbegins
  -- a term asks for a digit first, so the primary must not begin with one
  have hdigit := Dialect.opensTerm_eager_some.mp opens
  have hdash : c ≠ '-' := by
    rintro rfl
    rw [Marks.beginsPrimary_eq dash_mem_chars] at hbegins
    exact absurd hbegins (by decide)
  have hnone : parts.primary = none :=
    Option.not_isSome_iff_eq_none.mp (ne_true_of_eq_false unused)
  rw [skipSpace_cons_of_neg hspace]
  refine acceptsFrom_of_step fun here tree => ?_
  dsimp only [List.head?_cons, step, stepTerm]
  rw [if_neg Bool.false_ne_true, if_neg (ne_true_of_eq_false hspace),
    if_neg (ne_true_of_eq_false hdigit), if_neg hdash, if_pos hbegins, hnone]
  refine hprimary _ _ _ _ ?_ (acceptsFrom_of_skipSpace rfl ?_)
  · rw [nesting_cons_of_not_nests rfl]
    exact hn
  · exact more below id _ d v rfl hn hr hends h

/-- A term goes on with an exception if it has had none. The dash in front of it is read by the
term. -/
theorem driven_components_exception {used : Used} (unused : used.exception = false)
    (first : Symbol.exception.Driven limit n s t)
    (more : (Symbol.components { used with exception := true }).Driven limit n t r) :
    (Symbol.components used).Driven limit n s r := by
  obtain ⟨u, rfl, hexception⟩ := first
  rintro below id parts d v rfl hn hr hends h
  have hnone : parts.exception = none :=
    Option.not_isSome_iff_eq_none.mp (ne_true_of_eq_false unused)
  rw [skipSpace_cons_of_neg (Marks.isSpace_eq_false dash_mem_chars)]
  refine acceptsFrom_of_step fun here tree => ?_
  dsimp only [List.head?_cons, step, stepTerm]
  rw [if_neg Bool.false_ne_true,
    if_neg (ne_true_of_eq_false (Marks.isSpace_eq_false dash_mem_chars)),
    if_neg (ne_true_of_eq_false (Marks.isDigit_eq_false dash_mem_chars)), if_pos rfl, hnone]
  refine leads_openLiteral_single (Marks.plain_singleton '-') List.mem_cons_self (by decide) ?_
  -- behind the `-` the exception begins, whatever the next character is
  refine acceptsFrom_of_step fun here tree => ?_
  refine hexception _ _ _ ?_ (acceptsFrom_of_skipSpace rfl ?_)
  · rw [nesting_cons_of_not_nests rfl]
    exact hn
  · exact more below id _ d v rfl hn hr hends h

/-- Components that begin with a digit or a primary are a term. -/
theorem driven_term (hc : (isDigit c || beginsPrimary c) = true)
    (h : (Symbol.components {}).Driven limit n (c :: s) r) :
    Symbol.term.Driven limit n (c :: s) r := by
  refine ⟨c, s, rfl, hc, fun below id d t hn hr hends hrest => ?_⟩
  have hcomponents := h below id {} d t rfl hn hr hends hrest
  exact acceptsFrom_of_skipSpace rfl hcomponents

/-- A term that begins with a repetition goes on with its other parts. -/
theorem driven_term_repetition (first : Symbol.repetition.Driven limit n s t)
    (more : (Symbol.components ⟨true, false, false⟩).Driven limit n t r) :
    Symbol.term.Driven limit n s r := by
  have hcomponents : (Symbol.components {}).Driven limit n s r :=
    driven_components_repetition rfl first more
  obtain ⟨c, u, rfl, hdigit, -⟩ := first
  exact driven_term (by rw [hdigit, Bool.true_or]) hcomponents

/-- A term that begins with a primary goes on with its other parts, if the first character is not
taken for a repetition. -/
theorem driven_term_primary (opens : Dialect.eager.opensTerm s.head? = true)
    (first : Symbol.primary.Driven limit n s t)
    (more : (Symbol.components ⟨false, true, false⟩).Driven limit n t r) :
    Symbol.term.Driven limit n s r := by
  have hcomponents : (Symbol.components {}).Driven limit n s r :=
    driven_components_primary rfl opens first more
  obtain ⟨c, u, rfl, hbegins, -⟩ := first
  exact driven_term (by rw [hbegins, Bool.or_true]) hcomponents

/-! ### Definitions -/

section

variable {below : List Frame} {id : NodeId} {start : Position} {term : Option NodeId}

/-- A definition ends in front of what cannot begin a term and is no comma. -/
theorem acceptsFrom_definition_end (hends : EndsTerm c) (hcomma : c ≠ ',')
    (h : AcceptsFrom limit below (c :: t)) :
    AcceptsFrom limit (.definition id start term :: below) (c :: t) := by
  refine acceptsFrom_of_step fun here tree => ?_
  dsimp only [List.head?_cons, step, stepDefinition]
  rw [if_neg (ne_true_of_eq_false hends.space), if_neg hends.not_begins, if_neg hcomma]
  exact h

/-- Behind a comma a definition goes on as if it had just begun. -/
theorem acceptsFrom_definition_comma
    (h : AcceptsFrom limit (.definition id start none :: below) t) :
    AcceptsFrom limit (.definition id start term :: below) (',' :: t) := by
  have hends : EndsTerm ',' := endsTerm_of_mem List.mem_cons_self
  refine acceptsFrom_of_step fun here tree => ?_
  dsimp only [List.head?_cons, step, stepDefinition]
  rw [if_neg (ne_true_of_eq_false hends.space), if_neg hends.not_begins, if_pos rfl]
  exact leads_openLiteral_single (Marks.plain_singleton ',') List.mem_cons_self (by decide) h

/-- A definition without a term lets one begin at a digit or at what begins a primary, and white
space in front of it is skipped. -/
theorem acceptsFrom_definition_term (hc : (isDigit c || beginsPrimary c) = true)
    (h : ∀ next, AcceptsFrom limit
      (.term next {} false :: .definition id start (some next) :: below) (c :: t)) :
    AcceptsFrom limit (.definition id start none :: below) (skipSpace (c :: t)) := by
  have hspace : isSpace c = false := by
    rcases Bool.or_eq_true_iff.mp hc with hdigit | hbegins
    · exact isSpace_eq_false_of_isDigit hdigit
    · exact isSpace_eq_false_of_beginsPrimary hbegins
  rw [skipSpace_cons_of_neg hspace]
  refine acceptsFrom_of_step fun here tree => ?_
  dsimp only [List.head?_cons, step, stepDefinition]
  rw [if_neg (ne_true_of_eq_false hspace), if_pos hc]
  exact h _

end

/-- A definition may be nothing but white space. -/
theorem driven_definition_empty {blank : List Char} (spaces : Blank blank) :
    Symbol.definition.Driven limit n (blank ++ r) r := by
  rintro below id start c t - rfl hends hcomma h
  rw [skipSpace_append spaces, skipSpace_cons_of_neg hends.space]
  exact acceptsFrom_definition_end hends hcomma h

/-- A definition may be a single term with white space in front of it. -/
theorem driven_definition_term {blank : List Char} (spaces : Blank blank)
    (only : Symbol.term.Driven limit n s r) :
    Symbol.definition.Driven limit n (blank ++ s) r := by
  obtain ⟨d, u, rfl, hd, hterm⟩ := only
  rintro below id start c t hn rfl hends hcomma h
  rw [skipSpace_append spaces]
  refine acceptsFrom_definition_term hd fun next => ?_
  refine hterm _ next c t ?_ rfl hends (acceptsFrom_definition_end hends hcomma h)
  rw [nesting_cons_of_not_nests rfl]
  exact hn

/-- A definition may have a comma with no term in front of it, and then it goes on. -/
theorem driven_definition_empty_more {blank : List Char} (spaces : Blank blank)
    (more : Symbol.definition.Driven limit n s r) :
    Symbol.definition.Driven limit n (blank ++ ',' :: s) r := by
  intro below id start c t hn hr hends hcomma h
  rw [skipSpace_append spaces, skipSpace_cons_of_neg (endsTerm_of_mem List.mem_cons_self).space]
  refine acceptsFrom_definition_comma (acceptsFrom_of_skipSpace rfl ?_)
  exact more below id start c t hn hr hends hcomma h

/-- A definition may have a comma behind a term, and then it goes on. -/
theorem driven_definition_term_more {blank : List Char} (spaces : Blank blank)
    (first : Symbol.term.Driven limit n s (',' :: t))
    (more : Symbol.definition.Driven limit n t r) :
    Symbol.definition.Driven limit n (blank ++ s) r := by
  obtain ⟨d, u, rfl, hd, hterm⟩ := first
  intro below id start c v hn hr hends hcomma h
  rw [skipSpace_append spaces]
  refine acceptsFrom_definition_term hd fun next => ?_
  refine hterm _ next ',' t ?_ rfl (endsTerm_of_mem List.mem_cons_self)
    (acceptsFrom_definition_comma (acceptsFrom_of_skipSpace rfl ?_))
  · rw [nesting_cons_of_not_nests rfl]
    exact hn
  · exact more below id start c v hn hr hends hcomma h

/-- Where a list may end, there is a character, and it also ends the last term and the last
definition. -/
theorem EndsDefinitions.exists_cons {below : List Frame} (h : EndsDefinitions limit below r) :
    ∃ c t, r = c :: t ∧ EndsTerm c ∧ c ≠ ',' := by
  rcases h with ⟨c, t, hr, hmem, -⟩ | ⟨t, hr, -⟩
  · obtain ⟨hends, hcomma, -⟩ := Marks.ends_of_mem hmem
    exact ⟨c, t, hr, hends, hcomma⟩
  · exact ⟨'/', ')' :: t, hr, endsTerm_of_mem (List.mem_of_elem_eq_true rfl), by decide⟩

/-- A list that has read a definition ends where it may end. If that is a slash with a parenthesis
behind it, it hands over both of them as a closer. -/
theorem EndsDefinitions.acceptsFrom {below : List Frame} {id : NodeId}
    (h : EndsDefinitions limit below r) :
    AcceptsFrom limit (.definitions id .afterDefinition :: below) r := by
  refine acceptsFrom_of_step fun here tree => ?_
  rcases h with ⟨c, t, rfl, hmem, h⟩ | ⟨t, rfl, h⟩
  · obtain ⟨-, -, hseparator⟩ := Marks.ends_of_mem hmem
    have hslash : c ≠ '/' := by
      rintro rfl
      exact absurd hseparator (by decide)
    dsimp only [List.head?_cons, step, stepDefinitions]
    rw [if_neg hslash, if_neg (ne_true_of_eq_false hseparator)]
    exact h
  · exact acceptsFrom_of_step fun here tree => h _

/-- The definitions of a list begin with the first one, in front of which white space is skipped. -/
theorem acceptsFrom_definitions {below : List Frame} {id : NodeId}
    (h : ∀ next start, AcceptsFrom limit
      (.definition next start none :: .definitions id .afterDefinition :: below) (skipSpace s)) :
    AcceptsFrom limit (.definitions id .start :: below) (skipSpace s) := by
  refine acceptsFrom_of_step fun here tree => ?_
  dsimp only [step, stepDefinitions]
  rw [if_neg (ne_true_of_eq_false any_isSpace_skipSpace)]
  exact h _ here

/-- A list may be a single definition. -/
theorem driven_definitions_last (only : Symbol.definition.Driven limit n s r) :
    Symbol.definitions.Driven limit n s r := by
  intro below id hn hends
  obtain ⟨c, t, hr, hterm, hcomma⟩ := hends.exists_cons
  refine acceptsFrom_definitions fun next start => ?_
  refine only _ next start c t ?_ hr hterm hcomma hends.acceptsFrom
  rw [nesting_cons_of_not_nests rfl]
  exact hn

theorem Marks.plain_separators : Marks.Plain Marks.separators := by decide

theorem Marks.plain_terminators : Marks.Plain Marks.terminators := by decide

/-- Behind a separator the next definition begins, as it does at the head of the list. -/
theorem acceptsFrom_separator {below : List Frame} {id : NodeId}
    (separates : c = '|' ∨ c = '!' ∨ c = '/' ∧ t.head? ≠ some ')') (hne : t ≠ [])
    (h : AcceptsFrom limit (.definitions id .start :: below) t) :
    AcceptsFrom limit (.definitions id .afterDefinition :: below) (c :: t) := by
  refine acceptsFrom_of_step fun here tree => ?_
  rcases separates with rfl | rfl | ⟨rfl, hparen⟩
  · have hbar : "|" ∈ Marks.separators := List.mem_cons_self
    exact leads_openLiteral_single Marks.plain_separators hbar (by decide) h
  · have hbang : "!" ∈ Marks.separators := List.mem_of_elem_eq_true rfl
    exact leads_openLiteral_single Marks.plain_separators hbang (by decide) h
  · refine acceptsFrom_of_step fun here' tree => ?_
    obtain ⟨d, u, rfl⟩ := List.exists_cons_of_ne_nil hne
    dsimp only [List.tail_cons, List.head?_cons, step, stepDefinitions]
    rw [if_neg fun hd => hparen (congrArg some hd)]
    exact h

/-- A list goes on behind a bar. A slash is a bar, too, unless a parenthesis behind it makes it a
closer. -/
theorem driven_definitions_more (first : Symbol.definition.Driven limit n s (c :: t))
    (separates : c = '|' ∨ c = '!' ∨ c = '/' ∧ t.head? ≠ some ')') (hsuffix : r <:+ t)
    (more : Symbol.definitions.Driven limit n t r) : Symbol.definitions.Driven limit n s r := by
  intro below id hn hends
  -- behind a `/` there has to be a character, and what ends the definitions is one at the latest
  have hne : t ≠ [] := by
    rintro rfl
    obtain ⟨c, t, rfl, -⟩ := hends.exists_cons
    cases List.suffix_nil.mp hsuffix
  have hc : EndsTerm c ∧ c ≠ ',' := by
    rcases separates with rfl | rfl | ⟨rfl, -⟩ <;>
      exact ⟨endsTerm_of_mem (List.mem_of_elem_eq_true rfl), by decide⟩
  refine acceptsFrom_definitions fun next start => ?_
  refine first _ next start c t ?_ rfl hc.1 hc.2 (acceptsFrom_separator separates hne ?_)
  · rw [nesting_cons_of_not_nests rfl]
    exact hn
  · exact acceptsFrom_of_skipSpace rfl (more below id hn hends)

/-! ### Products and the whole text -/

/-- A product is a name, an equals sign, white space, a list and a semicolon or a full stop. -/
theorem driven_product {e : Char} {name blank : List Char} (letter : isLetter c = true)
    (parts : ∀ x ∈ name, isNamePart x = true) (spaces : Blank blank)
    (body : Symbol.definitions.Driven limit n s (e :: r)) (ends : e = ';' ∨ e = '.') :
    Symbol.product.Driven limit n (c :: (name ++ '=' :: (blank ++ s))) r := by
  refine ⟨c, _, rfl, letter, fun below here tree parent hn h => ?_⟩
  rw [openProduct_of_isLetter letter]
  refine acceptsFrom_identifier parts (Marks.isNamePart_eq_false (c := '=') (by decide)) ?_
  refine acceptsFrom_of_step fun here tree => ?_
  dsimp only [List.head?_cons, step, stepProduct]
  rw [if_pos rfl]
  refine leads_openLiteral_single (Marks.plain_singleton '=') List.mem_cons_self (by decide) ?_
  refine acceptsFrom_of_skipSpace rfl ?_
  rw [skipSpace_append spaces]
  refine acceptsFrom_of_step fun here tree => ?_
  dsimp only [step, stepProduct]
  rw [if_neg (ne_true_of_eq_false any_isSpace_skipSpace)]
  refine body _ _ ?_ (Or.inl ?_)
  · rw [nesting_cons_of_not_nests rfl]
    exact hn
  · have hterminator : ∃ mark ∈ Marks.terminators, mark.toList = [e] := by
      rcases ends with rfl | rfl
      · exact ⟨";", List.mem_cons_self, by decide⟩
      · exact ⟨".", List.mem_of_elem_eq_true rfl, by decide⟩
    have hmem : e ∈ Marks.endings := by
      rcases ends with rfl | rfl <;> exact List.mem_of_elem_eq_true rfl
    obtain ⟨mark, hmark, hread⟩ := hterminator
    refine ⟨e, r, rfl, hmem, ?_⟩
    refine acceptsFrom_of_step fun here tree => ?_
    exact leads_openLiteral_single Marks.plain_terminators hmark hread (acceptsFrom_closing h)

theorem driven_text_end : Symbol.text.Driven limit n [] [] :=
  fun _ => acceptsFrom_of_step fun _ _ => trivial

/-- A text goes on behind a comment, and the comment may nest as deep as the limit allows. -/
theorem driven_text_comment (first : Symbol.comment.Driven limit n s t)
    (more : Symbol.text.Driven limit n t r) : Symbol.text.Driven limit n s r := by
  intro hn
  obtain ⟨u, rfl, -, hcomment⟩ := first
  rw [skipSpace_cons_of_neg (Marks.isSpace_eq_false List.mem_cons_self)]
  refine acceptsFrom_of_step fun here tree => ?_
  have hmore := acceptsFrom_of_skipSpace rfl (more hn)
  obtain ⟨hlimit, hu⟩ := hcomment [.grammar true] tree.size ((Nat.zero_add n).symm ▸ hn) hmore
  dsimp only [List.head?_cons, step, stepGrammar]
  rw [if_pos rfl, if_pos rfl, openComment, if_neg (Nat.not_le.mpr hlimit)]
  have hplain : Marks.Plain ["(*"] := by decide
  have hread : "(*".toList = ['(', '*'] := by decide
  exact leads_openLiteral hplain List.mem_cons_self hread hu

/-- A text goes on behind a product. -/
theorem driven_text_product (first : Symbol.product.Driven limit n s t)
    (more : Symbol.text.Driven limit n t r) : Symbol.text.Driven limit n s r := by
  intro hn
  obtain ⟨c, u, rfl, hletter, hproduct⟩ := first
  rw [skipSpace_cons_of_neg (isSpace_eq_false_of_isLetter hletter)]
  refine acceptsFrom_of_step fun here tree => ?_
  have hparen : c ≠ '(' := ne_of_isLetter hletter List.mem_cons_self
  have hmore := acceptsFrom_of_skipSpace rfl (more hn)
  dsimp only [List.head?_cons, step, stepGrammar]
  rw [if_pos rfl, if_neg hparen, if_pos hletter]
  exact hproduct [.grammar true] here tree Tree.root ((Nat.zero_add n).symm ▸ hn) hmore

/-- A text goes on behind white space. -/
theorem driven_text_space (space : isSpace c = true) (more : Symbol.text.Driven limit n s r) :
    Symbol.text.Driven limit n (c :: s) r := by
  intro hn
  rw [skipSpace_cons_of_pos space]
  exact more hn

end

/-! ### All rules -/

/-- The machine gets over every text that is derived. The induction is on the derivation, with a
lemma for each rule. -/
theorem driven_of_derives {symbol : Symbol} {n : Nat} {s r : List Char} (limit : Nat)
    (h : Derives .eager symbol n s r) : symbol.Driven limit n s r := by
  induction h with
  | text_end => exact driven_text_end
  | text_comment _ _ first more => exact driven_text_comment first more
  | text_product _ _ first more => exact driven_text_product first more
  | text_space space _ more => exact driven_text_space space more
  | comment _ rest => exact driven_comment rest
  | comment_end => exact driven_comment_end
  | comment_nested _ _ first more => exact driven_comment_nested first more
  | comment_char no_end no_comment _ more => exact driven_comment_char no_end no_comment more
  | product letter parts spaces _ ends body => exact driven_product letter parts spaces body ends
  | definitions_last _ only => exact driven_definitions_last only
  | definitions_more _ separates hmore first more =>
    exact driven_definitions_more first separates hmore.suffix more
  | definition_empty spaces => exact driven_definition_empty spaces
  | definition_term spaces _ only => exact driven_definition_term spaces only
  | definition_empty_more spaces _ more => exact driven_definition_empty_more spaces more
  | definition_term_more spaces _ _ first more =>
    exact driven_definition_term_more spaces first more
  | term_repetition _ _ first more => exact driven_term_repetition first more
  | term_primary opens _ _ first more => exact driven_term_primary opens first more
  | components_end => exact driven_components_end
  | components_space space _ more => exact driven_components_space space more
  | components_repetition unused _ _ first more =>
    exact driven_components_repetition unused first more
  | components_primary unused opens _ _ first more =>
    exact driven_components_primary unused opens first more
  | components_exception unused _ _ first more =>
    exact driven_components_exception unused first more
  | repetition digit all_digits spaces => exact driven_repetition digit all_digits spaces
  | exception_empty spaces ends => exact driven_exception_empty spaces ends
  | exception_primary before _ behind ends first =>
    exact driven_exception_primary before first behind ends
  | primary_name letter parts ends => exact driven_primary_name letter parts ends
  | primary_quoted mark free => exact driven_primary_quoted mark free
  | primary_bracket opens no_opener spaces hbody closes body =>
    refine driven_primary_bracket opens no_opener spaces ?_ body closes
    -- the closer is a part of the text of the body, which is therefore not empty
    rintro rfl
    have hnil := List.append_eq_nil_iff.mp (List.suffix_nil.mp hbody.suffix)
    exact Bracket.toList_ne_nil closes hnil.1

end LosslessEbnf
