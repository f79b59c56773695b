import LosslessEbnf.Machine.Frame
import LosslessEbnf.Symbols

/-!
# The steps of the machine

What the machine does with the next character, by the production on top of the stack.

## Main Definitions

* `Sight` — the next character and where it stands
* `Move` — what a step comes to
* `step` — the step of the production on top

## Design Notes

A step looks at one character. It may take it, and then it sees the next one only after everything
that does not depend on that was done; so a tree that is cut off between two characters is complete
up to there. Or the step leaves the character to the next step, and then the open productions weigh
less than before. Only the end of the input lets the whole text end.

There is a function for each production, which handles the frames of that production, and one for
each component that may begin, which opens its frames.
-/

namespace LosslessEbnf

/-- What the machine sees: the next character, or none at the end of the input, and the position of
the last character that was delivered. -/
structure Sight where
  /-- The next character. -/
  ahead : Option Char
  /-- Where it stands. At the end of the input this is the position of the last character. -/
  here : Position
  deriving DecidableEq, Repr

/-- What a step comes to. -/
inductive Move
  /-- The character is left to the next step. -/
  | again (tree : Tree) (frames : List Frame)
  /-- The character is taken. -/
  | next (tree : Tree) (frames : List Frame)
  /-- The text is complete. -/
  | accept (tree : Tree)
  /-- The text cannot be read. -/
  | reject (tree : Tree) (cause : Cause)
  deriving DecidableEq, Repr

/-- The failure to see what is expected: the end of the input is reported as such. -/
def Sight.unexpected (sight : Sight) (tree : Tree) (expected : Expectation) : Move :=
  match sight.ahead with
  | some c => .reject tree (.unexpectedCharacter c expected)
  | none => .reject tree (.endOfInput (.expecting expected))

/-! ### Marks and runs -/

/-- Whether `candidate` is longer than what was read and begins with it. -/
def goesOn (read : List Char) (candidate : String) : Bool :=
  read.length < candidate.toList.length && read.isPrefixOf candidate.toList

/-- Whether `candidate` is just what was read. -/
def isRead (read : List Char) (candidate : String) : Bool := candidate.toList == read

theorem any_isRead_iff {candidates : List String} {read : List Char} :
    candidates.any (isRead read) = true ↔ String.ofList read ∈ candidates := by
  rw [List.any_eq_true]
  constructor
  · rintro ⟨mark, hmark, hread⟩
    rw [isRead, beq_iff_eq] at hread
    rwa [← hread, String.ofList_toList]
  · intro hmem
    exact ⟨_, hmem, beq_iff_eq.mpr String.toList_ofList⟩

/-- Ends a mark with the longest candidate that was read in full. -/
def settleLiteral (tree : Tree) (below : List Frame) (node : NodeId)
    (best : Option (List Char × Position)) (otherwise : Cause) : Move :=
  match best with
  | some (text, last) => .again ((tree.withData node (String.ofList text)).withLast node last) below
  | none => .reject tree otherwise

/-- A mark of which some characters were read. Reading goes on while some candidate goes on, and the
longest candidate that was read in full wins. -/
def stepLiteral (sight : Sight) (tree : Tree) (below : List Frame) (node : NodeId)
    (candidates : List String) (read : List Char) (best : Option (List Char × Position)) : Move :=
  match sight.ahead with
  | some c =>
    let read := read ++ [c]
    let full := candidates.any (isRead read)
    if candidates.any (goesOn read) then
      let best := if full then some (read, sight.here) else best
      .next tree (.literal node candidates read best :: below)
    else if full then .next tree (.matched node read sight.here :: below)
    else settleLiteral tree below node best (.noLiteral candidates (String.ofList read))
  | none =>
    settleLiteral tree below node best
      (if read.isEmpty then .noLiteral candidates "" else .endOfInput .literal)

/-- Begins a mark as a child of `parent`. -/
def openLiteral (sight : Sight) (tree : Tree) (frames : List Frame) (parent : NodeId)
    (candidates : List String) : Move :=
  let node := tree.size
  let tree := tree.pushChild parent .literal (.point sight.here)
  stepLiteral sight tree frames node candidates [] none

/-- A mark that was read in full. -/
def stepMatched (tree : Tree) (below : List Frame) (node : NodeId) (text : List Char)
    (last : Position) : Move :=
  .again ((tree.withData node (String.ofList text)).withLast node last) below

/-- Whether a character belongs to a run. -/
def Run.holds : Run → Char → Bool
  | space, c => isSpace c
  | number, c => isDigit c

/-- A run, which grows as long as characters of its class follow. -/
def stepRun (sight : Sight) (tree : Tree) (below : List Frame) (run : Run) (node : NodeId) : Move :=
  match sight.ahead with
  | some c =>
    if run.holds c then .next (tree.extend node c sight.here) (.run run node :: below)
    else .again tree below
  | none => .again tree below

/-- Begins a run of white space as a child of `parent`. -/
def openSpace (sight : Sight) (tree : Tree) (frames : List Frame) (parent : NodeId) : Move :=
  match sight.ahead with
  | some c =>
    if isSpace c then
      let node := tree.size
      .next (tree.pushChild parent .space (.point sight.here) (String.singleton c))
        (.run .space node :: frames)
    else .reject tree (.missingSpace sight.ahead)
  | none => .reject tree (.missingSpace none)

/-- A production whose last component was read ends with it. -/
def stepClosing (tree : Tree) (below : List Frame) (node : NodeId) : Move :=
  .again (tree.closeAtLastChild node) below

/-! ### Comments -/

/-- Puts a character of a comment into its text, which begins with the character if there is none
that can grow. Gives the node of the text, too. -/
def addText (tree : Tree) (node : NodeId) (text : Option NodeId) (c : Char) (here : Position) :
    Tree × NodeId :=
  match text with
  | some run => (tree.extend run c here, run)
  | none =>
    let run := tree.size
    (tree.pushChild node .text (.point here) (String.singleton c), run)

/-- A comment. A `*` or a `(` is text unless the character behind it makes it a mark. -/
def stepComment (limit : Nat) (sight : Sight) (tree : Tree) (below : List Frame) (node : NodeId)
    (text : Option NodeId) (stage : CommentStage) : Move :=
  match sight.ahead with
  | none => .reject tree (.endOfInput .comment)
  | some c =>
    match stage with
    | .body =>
      if c = '*' ∨ c = '(' then .next tree (.comment node text (.mark c sight.here) :: below)
      else
        let (tree, run) := addText tree node text c sight.here
        .next tree (.comment node (some run) .body :: below)
    | .mark first start =>
      if first = '*' ∧ c = ')' then
        let tree := tree.pushChild node .literal ⟨start, sight.here⟩ "*)"
        .next (tree.withLast node sight.here) below
      else if first = '(' ∧ c = '*' then
        .next tree (.comment node text (.opened ⟨start, sight.here⟩) :: below)
      else
        let (tree, run) := addText tree node text first start
        .again tree (.comment node (some run) .body :: below)
    | .opened opener =>
      if limit ≤ nesting (.comment node text stage :: below) then
        .reject tree (.nestingTooDeep limit)
      else
        let inner := tree.size
        let tree := tree.pushChild node .comment ⟨opener.first, sight.here⟩
        let tree := tree.pushChild inner .literal opener "(*"
        .again tree (.comment inner none .body :: .comment node none .body :: below)

/-- Begins a comment as a child of `parent`. -/
def openComment (limit : Nat) (sight : Sight) (tree : Tree) (frames : List Frame)
    (parent : NodeId) : Move :=
  if limit ≤ nesting frames then .reject tree (.nestingTooDeep limit)
  else
    let node := tree.size
    openLiteral sight (tree.pushChild parent .comment (.point sight.here))
      (.comment node none .body :: frames) node ["(*"]

/-! ### Primaries -/

/-- The text without the white space at its end, and that white space. -/
def splitTrailing (text : List Char) : List Char × List Char :=
  ((text.reverse.dropWhile isSpace).reverse, (text.reverse.takeWhile isSpace).reverse)

/-- A name. White space between its letters and digits belongs to it; white space at its end goes
into a node of its own behind it. -/
def stepIdentifier (sight : Sight) (tree : Tree) (below : List Frame) (node parent : NodeId)
    (trailing : Option Span) : Move :=
  let ended : Move :=
    match trailing with
    | none => .again tree below
    | some span =>
      let (name, rest) := splitTrailing (tree.data node).toList
      let tree := tree.withData node (String.ofList name)
      .again (tree.pushChild parent .space span (String.ofList rest)) below
  match sight.ahead with
  | some c =>
    if isNamePart c then
      if isSpace c then
        let first := (trailing.map Span.first).getD sight.here
        .next (tree.pushText node c) (.identifier node parent (some ⟨first, sight.here⟩) :: below)
      else
        .next (tree.extend node c sight.here) (.identifier node parent none :: below)
    else ended
  | none => ended

/-- Begins a name with the letter `c` as a child of `parent`. -/
def openIdentifier (sight : Sight) (tree : Tree) (frames : List Frame) (parent : NodeId)
    (c : Char) : Move :=
  let node := tree.size
  .next (tree.pushChild parent (.primary .identifier) (.point sight.here) (String.singleton c))
    (.identifier node parent none :: frames)

/-- Expects a name as a child of `parent`. -/
def expectIdentifier (sight : Sight) (tree : Tree) (frames : List Frame) (parent : NodeId)
    (c : Char) : Move :=
  if isLetter c then openIdentifier sight tree frames parent c else sight.unexpected tree .letter

theorem expectIdentifier_of_isLetter {sight : Sight} {tree : Tree} {frames : List Frame}
    {parent : NodeId} {c : Char} (h : isLetter c = true) :
    expectIdentifier sight tree frames parent c = openIdentifier sight tree frames parent c :=
  if_pos h

/-- A text between marks. -/
def stepQuoted (sight : Sight) (tree : Tree) (below : List Frame) (form : Quoted) (node : NodeId)
    (text : Option NodeId) : Move :=
  match text with
  | none =>
    let run := tree.size
    .again (tree.pushChild node .text (.point sight.here)) (.quoted form node (some run) :: below)
  | some run =>
    match sight.ahead with
    | none => .reject tree (.endOfInput form.unfinished)
    | some c =>
      if c = form.mark then
        openLiteral sight (tree.withLast run sight.here.left) (.closing node :: below) node
          [String.singleton form.mark]
      else .next (tree.pushText run c) (.quoted form node text :: below)

/-- Begins a text between marks as a child of `parent`. -/
def openQuoted (sight : Sight) (tree : Tree) (frames : List Frame) (parent : NodeId)
    (form : Quoted) : Move :=
  let node := tree.size
  openLiteral sight (tree.pushChild parent (.primary form.primary) (.point sight.here))
    (.quoted form node none :: frames) node [String.singleton form.mark]

/-- Expects a terminal as a child of `parent`. -/
def expectTerminal (sight : Sight) (tree : Tree) (frames : List Frame) (parent : NodeId)
    (c : Char) : Move :=
  if isQuote c then openQuoted sight tree frames parent (.terminal c)
  else sight.unexpected tree .quote

theorem expectTerminal_of_isQuote {sight : Sight} {tree : Tree} {frames : List Frame}
    {parent : NodeId} {c : Char} (h : isQuote c = true) :
    expectTerminal sight tree frames parent c = openQuoted sight tree frames parent (.terminal c) :=
  if_pos h

/-- Begins a bracket whose opener is still to be read, as a child of `parent`. -/
def openBracket (limit : Nat) (sight : Sight) (tree : Tree) (frames : List Frame) (parent : NodeId)
    (b : Bracket) : Move :=
  if limit ≤ nesting frames then .reject tree (.nestingTooDeep limit)
  else
    let node := tree.size
    openLiteral sight (tree.pushChild parent (.primary (.bracketed b none)) (.point sight.here))
      (.bracket b node (.opened (node + 1)) :: frames) node b.openers

/-- Begins a bracket whose opener was read already, as a child of `parent`. -/
def attachBracket (limit : Nat) (sight : Sight) (tree : Tree) (frames : List Frame)
    (parent : NodeId) (b : Bracket) (opener : Span) : Move :=
  if limit ≤ nesting frames then .reject tree (.nestingTooDeep limit)
  else
    let node := tree.size
    let tree := tree.pushChild parent (.primary (.bracketed b none)) ⟨opener.first, sight.here⟩
    let tree := tree.pushChild node .literal opener b.roundOpener
    .again tree (.bracket b node (.opened (node + 1)) :: frames)

/-- A `(`, which the next character makes a two-character opener or the opener of a group. -/
def stepParen (limit : Nat) (sight : Sight) (tree : Tree) (below : List Frame) (parent : NodeId)
    (start : Position) : Move :=
  match sight.ahead with
  | none => .reject tree (.endOfInput .primary)
  | some c =>
    if c = '/' then .next tree (.opener .repeated parent ⟨start, sight.here⟩ :: below)
    else if c = ':' then .next tree (.opener .optional parent ⟨start, sight.here⟩ :: below)
    else attachBracket limit sight tree below parent .grouped (.point start)

/-- A bracket. The closer `/)` of a repeat is handed over by the definitions; the other brackets
cannot end with it. -/
def stepBracket (sight : Sight) (tree : Tree) (below : List Frame) (b : Bracket) (node : NodeId)
    (stage : BracketStage) : Move :=
  match stage with
  | .opened opening =>
    let tree := tree.withKind node (.primary (.bracketed b (some opening)))
    if sight.ahead.any isSpace then openSpace sight tree (.bracket b node stage :: below) node
    else
      let list := tree.size
      .again (tree.pushChild node .definitionList (.point sight.here))
        (.definitions list .start :: .bracket b node (.body none) :: below)
  | .body none => openLiteral sight tree (.closing node :: below) node b.closers
  | .body (some closer) =>
    if b = .repeated then
      .again ((tree.pushChild node .literal closer "/)").withLast node closer.last) below
    else .reject tree (.unexpectedLiteral "/)" closer)

/-- Begins the primary that `c` starts, as a child of `parent`. -/
def openPrimary (limit : Nat) (sight : Sight) (tree : Tree) (frames : List Frame) (parent : NodeId)
    (c : Char) : Move :=
  if isLetter c then expectIdentifier sight tree frames parent c
  else if isQuote c then expectTerminal sight tree frames parent c
  else if c = '\x7b' then openBracket limit sight tree frames parent .repeated
  else if c = '[' then openBracket limit sight tree frames parent .optional
  else if c = '?' then openQuoted sight tree frames parent .special
  else if c = '(' then .next tree (.paren parent sight.here :: frames)
  else sight.unexpected tree .primaryStart

/-! ### Terms -/

/-- Expects a number as a child of `parent`. -/
def expectNumber (sight : Sight) (tree : Tree) (frames : List Frame) (parent : NodeId)
    (c : Char) : Move :=
  if isDigit c then
    let node := tree.size
    .next (tree.pushChild parent .number (.point sight.here) (String.singleton c))
      (.run .number node :: frames)
  else sight.unexpected tree .number

/-- Begins a repetition, whose number begins with the digit `c`, as a child of `parent`. -/
def openRepetition (sight : Sight) (tree : Tree) (frames : List Frame) (parent : NodeId)
    (c : Char) : Move :=
  let node := tree.size
  expectNumber sight (tree.pushChild parent .repetition (.point sight.here))
    (.repetition node :: frames) node c

theorem openRepetition_of_isDigit {sight : Sight} {tree : Tree} {frames : List Frame}
    {parent : NodeId} {c : Char} (h : isDigit c = true) :
    openRepetition sight tree frames parent c =
      .next ((tree.pushChild parent .repetition (.point sight.here)).pushChild tree.size .number
          (.point sight.here) (String.singleton c))
        (.run .number (tree.size + 1) :: .repetition tree.size :: frames) := by
  rw [openRepetition, expectNumber, if_pos h, Tree.size_pushChild]

/-- Adds an empty string in front of the next character as a child of `parent`. -/
def addEmptyString (tree : Tree) (parent : NodeId) (here : Position) : Tree :=
  tree.pushChild parent (.primary .emptyString) (.gap here)

/-- Adds a term of an empty string in front of the next character as a child of `parent`. -/
def addEmptyTerm (tree : Tree) (parent : NodeId) (here : Position) : Tree :=
  let term := tree.size
  let primary := term + 1
  let tree := tree.pushChild parent (.term {}) (.gap here)
  (addEmptyString tree term here).withKind term (.term ⟨none, some primary, none⟩)

/-- Ends a term. A term without a primary gets an empty string. -/
def endTerm (sight : Sight) (tree : Tree) (below : List Frame) (node : NodeId) (parts : TermParts) :
    Move :=
  match parts.primary with
  | some _ => .again (tree.closeAtLastChild node) below
  | none =>
    let primary := tree.size
    let tree := (addEmptyString tree node sight.here).withKind node
      (.term { parts with primary := some primary })
    .again (tree.closeAtLastChild node) below

/-- A term: a repetition, a primary and an exception in any order, each at most once. -/
def stepTerm (limit : Nat) (sight : Sight) (tree : Tree) (below : List Frame) (node : NodeId)
    (parts : TermParts) (dash : Bool) : Move :=
  let tree := tree.withKind node (.term parts)
  if dash then
    let exception := tree.size
    .again (tree.pushChild node (.exception none) (.point sight.here))
      (.exception exception node none ::
        .term node { parts with exception := some exception } false :: below)
  else
    match sight.ahead with
    | none => endTerm sight tree below node parts
    | some c =>
      if isSpace c then openSpace sight tree (.term node parts false :: below) node
      else if isDigit c then
        match parts.repetition with
        | some held => .reject tree (.multipleRepetitions node held (tree.span held).first)
        | none =>
          openRepetition sight tree
            (.term node { parts with repetition := some tree.size } false :: below) node c
      else if c = '-' then
        match parts.exception with
        | some held => .reject tree (.multipleExceptions node held (tree.span held).first)
        | none => openLiteral sight tree (.term node parts true :: below) node ["-"]
      else if beginsPrimary c then
        match parts.primary with
        | some held => .reject tree (.multiplePrimaries node held (tree.span held).first)
        | none =>
          openPrimary limit sight tree
            (.term node { parts with primary := some tree.size } false :: below) node c
      else endTerm sight tree below node parts

/-- Ends an exception. An exception without a primary gets an empty string. -/
def endException (sight : Sight) (tree : Tree) (below : List Frame) (node : NodeId)
    (primary : Option NodeId) : Move :=
  match primary with
  | some _ => .again (tree.closeAtLastChild node) below
  | none =>
    let primary := tree.size
    let tree := (addEmptyString tree node sight.here).withKind node (.exception (some primary))
    .again (tree.closeAtLastChild node) below

/-- An exception: one primary with white space around it. -/
def stepException (limit : Nat) (sight : Sight) (tree : Tree) (below : List Frame)
    (node term : NodeId) (primary : Option NodeId) : Move :=
  let tree := tree.withKind node (.exception primary)
  match sight.ahead with
  | none => endException sight tree below node primary
  | some c =>
    if isSpace c then openSpace sight tree (.exception node term primary :: below) node
    else if beginsPrimary c then
      match primary with
      | some held => .reject tree (.multiplePrimaries term held (tree.span held).first)
      | none =>
        openPrimary limit sight tree (.exception node term (some tree.size) :: below) node c
    else endException sight tree below node primary

/-- A repetition, whose star may stand behind white space. -/
def stepRepetition (sight : Sight) (tree : Tree) (below : List Frame) (node : NodeId) : Move :=
  if sight.ahead.any isSpace then openSpace sight tree (.repetition node :: below) node
  else openLiteral sight tree (.closing node :: below) node ["*"]

/-! ### Definitions and products -/

/-- Adds the term of a definition in which no term has begun since the last comma. -/
def addMissingTerm (tree : Tree) (node : NodeId) (term : Option NodeId) (here : Position) : Tree :=
  match term with
  | some _ => tree
  | none => addEmptyTerm tree node here

/-- A definition: terms with commas between them. A missing term becomes an empty one. -/
def stepDefinition (sight : Sight) (tree : Tree) (below : List Frame) (node : NodeId)
    (start : Position) (term : Option NodeId) : Move :=
  match sight.ahead with
  | none => .reject tree (.endOfInput (.definition start))
  | some c =>
    if isSpace c then openSpace sight tree (.definition node start term :: below) node
    else if isDigit c || beginsPrimary c then
      match term with
      | some previous => .reject tree (.undelimitedTerm previous (tree.span previous).first)
      | none =>
        let next := tree.size
        .again (tree.pushChild node (.term {}) (.point sight.here))
          (.term next {} false :: .definition node start (some next) :: below)
    else if c = ',' then
      openLiteral sight (addMissingTerm tree node term sight.here)
        (.definition node start none :: below) node [","]
    else
      .again ((addMissingTerm tree node term sight.here).withLast node sight.here.left) below

/-- A list of definitions. A `/` in front of a `)` is no separator but part of a closer, which is
handed over to the production around the list. -/
def stepDefinitions (sight : Sight) (tree : Tree) (below : List Frame) (node : NodeId)
    (stage : ListStage) : Move :=
  match stage with
  | .start =>
    if sight.ahead.any isSpace then openSpace sight tree (.definitions node .start :: below) node
    else
      let definition := tree.size
      .again (tree.pushChild node .definition (.point sight.here))
        (.definition definition sight.here none :: .definitions node .afterDefinition :: below)
  | .afterDefinition =>
    let tree := tree.withLast node sight.here.left
    match sight.ahead with
    | none => .again tree below
    | some c =>
      if c = '/' then .next tree (.definitions node (.afterSlash sight.here) :: below)
      else if isSeparator c then
        openLiteral sight tree (.definitions node .start :: below) node Marks.separators
      else .again tree below
  | .afterSlash slash =>
    match sight.ahead with
    | none => .reject tree (.endOfInput .definitionList)
    | some c =>
      if c = ')' then .next (tree.withLast node slash.left) (handOver ⟨slash, sight.here⟩ below)
      else
        .again (tree.pushChild node .literal (.point slash) "/")
          (.definitions node .start :: below)

/-- A product. -/
def stepProduct (sight : Sight) (tree : Tree) (below : List Frame) (node lhs : NodeId)
    (stage : ProductStage) : Move :=
  match stage with
  | .name =>
    let tree := tree.withKind node (.product (some lhs) none)
    if sight.ahead = some '=' then
      openLiteral sight tree (.product node lhs .equals :: below) node ["="]
    else sight.unexpected tree .equalsSign
  | .equals =>
    if sight.ahead.any isSpace then openSpace sight tree (.product node lhs .equals :: below) node
    else
      let list := tree.size
      .again (tree.pushChild node .definitionList (.point sight.here))
        (.definitions list .start :: .product node lhs (.body list none) :: below)
  | .body list closer =>
    let tree := tree.withKind node (.product (some lhs) (some list))
    match closer with
    | some span => .reject tree (.unexpectedLiteral "/)" span)
    | none => openLiteral sight tree (.closing node :: below) node Marks.terminators

/-- Begins a product as a child of `parent`. Its name begins with the letter `c`. -/
def openProduct (sight : Sight) (tree : Tree) (frames : List Frame) (parent : NodeId) (c : Char) :
    Move :=
  if isLetter c then
    let node := tree.size
    expectIdentifier sight (tree.pushChild parent (.product none none) (.point sight.here))
      (.product node (node + 1) .name :: frames) node c
  else sight.unexpected tree .letter

theorem openProduct_of_isLetter {sight : Sight} {tree : Tree} {frames : List Frame}
    {parent : NodeId} {c : Char} (h : isLetter c = true) :
    openProduct sight tree frames parent c =
      openIdentifier sight (tree.pushChild parent (.product none none) (.point sight.here))
        (.product tree.size (tree.size + 1) .name :: frames) tree.size c := by
  rw [openProduct, if_pos h, expectIdentifier_of_isLetter h]

/-- The whole text. -/
def stepGrammar (limit : Nat) (sight : Sight) (tree : Tree) (below : List Frame) (begun : Bool) :
    Move :=
  if begun then
    match sight.ahead with
    | none => .accept (tree.withLast Tree.root sight.here)
    | some c =>
      let frames := .grammar true :: below
      if c = '(' then openComment limit sight tree frames Tree.root
      else if isLetter c then openProduct sight tree frames Tree.root c
      else if isSpace c then openSpace sight tree frames Tree.root
      else sight.unexpected tree .item
  else
    match sight.ahead with
    | none => .accept (tree.withSpan Tree.root (.gap ⟨1, 1⟩))
    | some _ => .again (tree.withFirst Tree.root sight.here) (.grammar true :: below)

/-! ### The step of the machine -/

/-- The step of the production on top. Comments and brackets may be nested `limit` deep. -/
def step (limit : Nat) (sight : Sight) (tree : Tree) : List Frame → Move
  | [] => .accept tree
  | frame :: below =>
    match frame with
    | .grammar begun => stepGrammar limit sight tree below begun
    | .comment node text stage => stepComment limit sight tree below node text stage
    | .product node lhs stage => stepProduct sight tree below node lhs stage
    | .definitions node stage => stepDefinitions sight tree below node stage
    | .definition node start term => stepDefinition sight tree below node start term
    | .term node parts dash => stepTerm limit sight tree below node parts dash
    | .exception node term primary => stepException limit sight tree below node term primary
    | .repetition node => stepRepetition sight tree below node
    | .paren parent start => stepParen limit sight tree below parent start
    | .opener b parent span => attachBracket limit sight tree below parent b span
    | .bracket b node stage => stepBracket sight tree below b node stage
    | .quoted form node text => stepQuoted sight tree below form node text
    | .identifier node parent trailing => stepIdentifier sight tree below node parent trailing
    | .run run node => stepRun sight tree below run node
    | .literal node candidates read best => stepLiteral sight tree below node candidates read best
    | .matched node text last => stepMatched tree below node text last
    | .closing node => stepClosing tree below node

end LosslessEbnf
