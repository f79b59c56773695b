import LosslessEbnf.Proofs.Decoding

/-!
# Interruptions

Bytes arrive in pieces, and a call for them may be interrupted, which means that it may be repeated.
No byte is lost by that. But a call for a character repeats the interrupted one only if it has met
some bytes of the character already.

## Main Definitions

* `interrupts` — a reply or an arrival is an interruption
* `ByteSource.replies` — what calls for one character at a time reply until the source is done
* `ByteSource.joined` — the bytes of some arrivals

## Main Statements

* `ByteSource.Front.replies_interrupted` — an interruption within a character is passed over
* `ByteSource.Front.uninterrupted_replies` — but for the interruptions, the replies are those
  without any
* `ByteSource.mem_replies_iff` — which interruptions are passed on
* `ByteSource.replies_of_interruptions` — what interruptions do to the replies and to a run

## Design Notes

Whether an interruption is passed on depends on the bytes in front of it. If they are whole
characters, the source waits for the first byte of the next one, and then it fails. Otherwise it
either waits for more bytes of a character, or it has come to an end before, at bytes that are not
UTF-8. So the statements are by induction on the arrivals, with the bytes in front of them gathered
in a `Front`.
-/

namespace LosslessEbnf

/-- Whether a reply or an arrival is an interruption. -/
def interrupts {α : Type} : Except Fault α → Bool
  | .ok _ => false
  | .error fault => fault.kind = .interrupted

theorem interrupts_iff {α : Type} {reply : Except Fault α} :
    interrupts reply = true ↔ ∃ fault, fault.kind = .interrupted ∧ reply = .error fault := by
  cases reply with
  | ok a => exact ⟨nofun, nofun⟩
  | error fault =>
    constructor
    · intro h
      exact ⟨fault, of_decide_eq_true h, rfl⟩
    · rintro ⟨_, h, heq⟩
      cases heq
      exact decide_eq_true h

namespace ByteSource

variable {s s' : ByteSource} {fault : Fault} {c : Char} {n : Nat}

/-! ### Calls that are interrupted -/

/-- The taking of bytes passes no interruption on; it asks again until there are bytes or another
failure. -/
theorem kind_ne_of_takeByte (h : s.takeByte = (.error fault, s')) : fault.kind ≠ .interrupted := by
  obtain ⟨buffer, arrivals⟩ := s
  cases buffer with
  | cons b buffer => cases h
  | nil =>
    rw [takeByte] at h
    dsimp only at h
    fun_induction awaitByte arrivals with
    | case1 => cases h
    | case2 _ _ _ ih => exact ih h
    | case3 other arrivals hne =>
      cases h
      exact hne
    | case4 => cases h
    | case5 => cases h

theorem kind_ne_of_take (h : take n s = (.error fault, s')) : fault.kind ≠ .interrupted := by
  induction n generalizing s with
  | zero => cases h
  | succ n ih =>
    rw [take] at h
    split at h
    · rename_i other s₁ hbyte
      cases h
      split
      · decide
      · exact kind_ne_of_takeByte hbyte
    · cases h
      decide
    · split at h
      · rename_i hmore
        cases h
        exact ih hmore
      · cases h

/-- A call for a character is interrupted only where no bytes of it have arrived, and then nothing
was taken. -/
theorem eq_of_readChar_interrupted (h : s.readChar = (.error fault, s'))
    (hkind : fault.kind = .interrupted) :
    s = ⟨[], .error fault :: s'.arrivals⟩ ∧ s' = ⟨[], s'.arrivals⟩ := by
  obtain ⟨buffer, arrivals⟩ := s
  rw [readChar] at h
  split at h
  · rename_i hpeek
    cases h
    cases buffer with
    | cons b buffer => cases hpeek
    | nil =>
      cases arrivals with
      | nil => cases hpeek
      | cons arrival arrivals =>
        cases arrival with
        | ok bytes => cases hpeek
        | error other =>
          cases hpeek
          exact ⟨rfl, rfl⟩
  · cases h
  · split at h
    · cases h
      cases hkind
    split at h
    · rename_i htake
      cases h
      exact absurd hkind (kind_ne_of_take htake)
    split at h
    · cases h
      cases hkind
    · cases h

/-- The reply to a call for one character. -/
theorem read_one (s : ByteSource) :
    Source.read 1 s =
      match s.readChar with
      | (.error fault, rest) => (.error fault, rest)
      | (.ok none, rest) => (.ok "", rest)
      | (.ok (some c), rest) => (.ok (String.singleton c), rest) := by
  simp only [Source.read, readChars]
  cases s.readChar with
  | mk reply rest =>
    match reply with
    | .error fault => rfl
    | .ok none => rfl
    | .ok (some c) => rfl

/-- An interruption that is passed on has used up an arrival, so a source is interrupted only so
many times. -/
theorem size_lt_of_interrupted (h : Source.read 1 s = (.error fault, s'))
    (hkind : fault.kind = .interrupted) : s'.size < s.size := by
  rw [read_one] at h
  split at h
  · rename_i hread
    cases h
    obtain ⟨hs, hs'⟩ := eq_of_readChar_interrupted hread hkind
    rw [hs, hs']
    simp only [size, arrivalsSize, arrivalSize]
    omega
  · cases h
  · cases h

/-- What calls for one character at a time reply, until the input ends or cannot be read. After an
interruption the call is repeated. -/
def replies (s : ByteSource) : List (Except Fault String) :=
  match _h : Source.read 1 s with
  | (.error fault, rest) =>
    if _hkind : fault.kind = .interrupted then .error fault :: replies rest else [.error fault]
  | (.ok text, rest) =>
    if _ht : text.toList = [] then [.ok text] else .ok text :: replies rest
termination_by s.size
decreasing_by
  · exact size_lt_of_interrupted _h _hkind
  · exact Source.size_lt _h _ht

/-- The replies, unrolled by one call. They end with a failure that is no interruption, and with the
end of the input. -/
theorem replies_eq (s : ByteSource) :
    s.replies =
      match Source.read 1 s with
      | (.error fault, rest) =>
        if fault.kind = .interrupted then .error fault :: replies rest else [.error fault]
      | (.ok text, rest) => if text.toList = [] then [.ok text] else .ok text :: replies rest := by
  rw [replies]
  split <;> simp_all

theorem replies_of_char (h : s.readChar = (.ok (some c), s')) :
    s.replies = .ok (String.singleton c) :: s'.replies := by
  rw [replies_eq, read_one, h]
  dsimp only
  rw [if_neg (by simp)]

theorem replies_of_end (h : s.readChar = (.ok none, s')) : s.replies = [.ok ""] := by
  rw [replies_eq, read_one, h]
  rfl

theorem replies_of_notUtf8 (h : s.readChar.1 = .error .notUtf8) :
    s.replies = [.error .notUtf8] := by
  obtain ⟨rest, hread⟩ : ∃ rest, s.readChar = (.error .notUtf8, rest) := ⟨_, Prod.ext h rfl⟩
  rw [replies_eq, read_one, hread]
  rfl

theorem replies_of_interruption (hkind : fault.kind = .interrupted) (back : List Arrival) :
    replies ⟨[], .error fault :: back⟩ = .error fault :: replies ⟨[], back⟩ := by
  have hread : readChar ⟨[], .error fault :: back⟩ = (.error fault, ⟨[], back⟩) := rfl
  rw [replies_eq, read_one, hread]
  exact if_pos hkind

theorem replies_congr (h : s.readChar = s'.readChar) : s.replies = s'.replies := by
  rw [replies_eq, read_one, h, ← read_one, ← replies_eq]

/-! ### What stands in front of an interruption -/

/-- The character of the bytes that were taken for it. -/
def decoded : Except Fault (List UInt8) × ByteSource → Except Fault (Option Char) × ByteSource
  | (.error fault, s) => (.error fault, s)
  | (.ok bytes, s) =>
    match Utf8.decode? bytes with
    | none => (.error .notUtf8, s)
    | some c => (.ok (some c), s)

namespace Front

variable {front : Front} {text : List Char} {rest : List UInt8} {back : List Arrival}

/-- The characters in front are delivered, whatever arrives behind them. -/
theorem replies_chars (h : front.bytes = text.flatMap Utf8.encode ++ rest) :
    ∃ front' : Front, front'.bytes = rest ∧ ∀ behind,
      (front.before behind).replies =
        text.map (fun c => .ok (String.singleton c)) ++ (front'.before behind).replies := by
  induction text generalizing front with
  | nil => exact ⟨front, h, fun behind => rfl⟩
  | cons c text ih =>
    rw [List.flatMap_cons, List.append_assoc] at h
    obtain ⟨middle, hmiddle, hread⟩ := front.readChar h
    obtain ⟨front', hrest, hreplies⟩ := ih hmiddle
    refine ⟨front', hrest, fun behind => ?_⟩
    rw [replies_of_char (hread behind), hreplies]
    rfl

/-- Whole characters are delivered, and then it is up to what arrives behind them. -/
theorem replies_whole (h : front.bytes = text.flatMap Utf8.encode) (behind : List Arrival) :
    (front.before behind).replies =
      text.map (fun c => .ok (String.singleton c)) ++ replies ⟨[], behind⟩ := by
  obtain ⟨front', hrest, hreplies⟩ := front.replies_chars (h.trans (List.append_nil _).symm)
  rw [hreplies, before_of_bytes_eq_nil hrest]

/-- Where no character stands in front, a call finds that out from the bytes that are there, or it
asks for more bytes than there are. -/
theorem readChar_of_stuck (hstuck : Utf8.Stuck front.bytes) (hne : front.bytes ≠ []) :
    (∀ behind, (front.before behind).readChar.1 = .error .notUtf8) ∨
      ∃ (front' : Front) (width : Nat), front'.bytes.length < width ∧ ∀ behind,
        (front.before behind).readChar =
          decoded (ByteSource.take width (front'.before behind)) := by
  obtain ⟨lead, more, hbytes⟩ := List.exists_cons_of_ne_nil hne
  obtain ⟨middle, hmiddle, hpeek⟩ := front.peek hbytes
  cases hwidth : Utf8.width? lead with
  | none =>
    refine Or.inl fun behind => ?_
    rw [ByteSource.readChar, hpeek]
    simp only [hwidth]
  | some width =>
    have hread : ∀ behind, (front.before behind).readChar =
        decoded (ByteSource.take width (middle.before behind)) := by
      intro behind
      rw [ByteSource.readChar, hpeek]
      simp only [hwidth]
      rcases ByteSource.take width (middle.before behind) with ⟨fault | bytes, s⟩
      · rfl
      · rfl
    by_cases hle : width ≤ middle.bytes.length
    · -- all bytes that the first one asks for are there, and they are those of no character
      obtain ⟨front', -, htake⟩ := middle.take (List.take_append_drop width middle.bytes).symm
      rw [List.length_take_of_le hle] at htake
      refine Or.inl fun behind => ?_
      rw [hread, htake, decoded]
      cases hdecode : Utf8.decode? (middle.bytes.take width) with
      | none => rfl
      | some c =>
        have hprefix := List.take_prefix width middle.bytes
        rw [← Utf8.encode_of_decode? hdecode, hmiddle] at hprefix
        exact absurd hprefix (hstuck c)
    · exact Or.inr ⟨middle, width, Nat.lt_of_not_le hle, hread⟩

/-- An interruption is passed over while bytes are taken, since the taking asks again. -/
theorem take_interrupted (hkind : fault.kind = .interrupted) (h : front.bytes.length < n) :
    ByteSource.take n (front.before (.error fault :: back)) =
      ByteSource.take n (front.before back) := by
  induction n generalizing front with
  | zero => cases h
  | succ n ih =>
    cases hbytes : front.bytes with
    | nil =>
      have hbyte : (ByteSource.mk [] (.error fault :: back)).takeByte =
          (ByteSource.mk [] back).takeByte := if_pos hkind
      rw [before_of_bytes_eq_nil hbytes, before_of_bytes_eq_nil hbytes, ByteSource.take, hbyte,
        ByteSource.take]
    | cons b rest =>
      obtain ⟨front', hrest, hbyte⟩ := front.takeByte hbytes
      rw [hbytes, List.length_cons] at h
      rw [ByteSource.take, hbyte, ByteSource.take, hbyte]
      dsimp only
      rw [ih (hrest ▸ Nat.lt_of_succ_lt_succ h)]

/-- If the input ends too early, the bytes are not UTF-8, whatever interruptions came in between. -/
theorem take_of_lt (h : front.bytes.length < n) :
    (ByteSource.take n (front.before [])).1 = .error .notUtf8 := by
  induction n generalizing front with
  | zero => cases h
  | succ n ih =>
    cases hbytes : front.bytes with
    | nil =>
      rw [before_of_bytes_eq_nil hbytes]
      rfl
    | cons b rest =>
      obtain ⟨front', hrest, hbyte⟩ := front.takeByte hbytes
      rw [hbytes, List.length_cons] at h
      have hmore : (ByteSource.take n (front'.before [])).1 = .error .notUtf8 :=
        ih (hrest ▸ Nat.lt_of_succ_lt_succ h)
      rw [ByteSource.take, hbyte]
      dsimp only
      split
      · rename_i hread
        rw [hread] at hmore
        exact hmore
      · rename_i hread
        rw [hread] at hmore
        cases hmore

/-- An interruption is passed over where the bytes in front of it are not whole characters. -/
theorem replies_interrupted (hkind : fault.kind = .interrupted) (h : ¬Utf8.Valid front.bytes) :
    (front.before (.error fault :: back)).replies = (front.before back).replies := by
  obtain ⟨text, tail, hbytes, hstuck⟩ := Utf8.exists_stuck front.bytes
  obtain ⟨front', rfl, hreplies⟩ := front.replies_chars hbytes
  have hne : front'.bytes ≠ [] := by
    intro hnil
    rw [hnil, List.append_nil] at hbytes
    exact h (Utf8.valid_iff.mpr ⟨text, hbytes.symm⟩)
  rw [hreplies, hreplies]
  rcases front'.readChar_of_stuck hstuck hne with hread | ⟨last, width, hlt, hread⟩
  · rw [replies_of_notUtf8 (hread _), replies_of_notUtf8 (hread _)]
  · have hsame : (front'.before (.error fault :: back)).readChar =
        (front'.before back).readChar := by
      rw [hread, hread, last.take_interrupted hkind hlt]
    rw [replies_congr hsame]

/-- Without arrivals behind the bytes there are only characters, the end and bytes that are no
character, and none of these is an interruption. -/
theorem interrupts_eq_false {reply : Except Fault String}
    (h : reply ∈ (front.before []).replies) : interrupts reply = false := by
  obtain ⟨text, tail, hbytes, hstuck⟩ := Utf8.exists_stuck front.bytes
  obtain ⟨front', rfl, hreplies⟩ := front.replies_chars hbytes
  have hlast : (front'.before []).replies = [.ok ""] ∨
      (front'.before []).replies = [.error .notUtf8] := by
    by_cases hnil : front'.bytes = []
    · rw [before_of_bytes_eq_nil hnil]
      exact Or.inl (replies_of_end rfl)
    · refine Or.inr ?_
      rcases front'.readChar_of_stuck hstuck hnil with hread | ⟨last, width, hlt, hread⟩
      · exact replies_of_notUtf8 (hread [])
      · refine replies_of_notUtf8 ?_
        have htake := last.take_of_lt hlt
        rw [hread]
        generalize ByteSource.take width (last.before []) = taken at htake
        obtain ⟨fault | bytes, s⟩ := taken
        · exact congrArg Except.error (Except.error.inj htake)
        · cases htake
  rw [hreplies, List.mem_append, List.mem_map] at h
  rcases h with ⟨c, -, rfl⟩ | h
  · rfl
  · rcases hlast with hlast | hlast
    · rw [hlast, List.mem_singleton] at h
      rw [h]
      rfl
    · rw [hlast, List.mem_singleton] at h
      rw [h]
      rfl

/-- A piece that arrives behind the bytes is one of them. -/
def snoc (front : Front) (piece : List UInt8) (h : piece ≠ []) : Front where
  buffer := front.buffer
  pieces := front.pieces ++ [piece]
  ne_nil := List.forall_mem_append.mpr ⟨front.ne_nil, List.forall_mem_singleton.mpr h⟩

theorem bytes_snoc (front : Front) {piece : List UInt8} (h : piece ≠ []) :
    (front.snoc piece h).bytes = front.bytes ++ piece := by
  rw [bytes, bytes, snoc, List.flatten_append, List.flatten_singleton, List.append_assoc]

theorem before_snoc (front : Front) {piece : List UInt8} (h : piece ≠ []) (behind : List Arrival) :
    (front.snoc piece h).before behind = front.before (.ok piece :: behind) := by
  rw [before, before, snoc, List.map_append, List.append_assoc]
  rfl

/-- The front without any bytes. -/
def empty : Front := ⟨[], [], nofun⟩

theorem before_empty (arrivals : List Arrival) : empty.before arrivals = ⟨[], arrivals⟩ := rfl

end Front

/-! ### Arrivals with interruptions -/

/-- The arrival is a piece with bytes in it, or an interruption. -/
def Regular (arrival : Arrival) : Prop :=
  interrupts arrival = true ∨ ∃ piece, piece ≠ [] ∧ arrival = .ok piece

/-- The arrivals without the interruptions. -/
def uninterrupted {α : Type} (replies : List (Except Fault α)) : List (Except Fault α) :=
  replies.filter fun reply => !interrupts reply

/-- The bytes of some arrivals, one piece after the other. -/
def joined (arrivals : List Arrival) : List UInt8 :=
  arrivals.flatMap fun
    | .ok bytes => bytes
    | .error _ => []

variable {arrivals : List Arrival}

theorem uninterrupted_eq_self {α : Type} {replies : List (Except Fault α)}
    (h : ∀ reply ∈ replies, interrupts reply = false) : uninterrupted replies = replies :=
  List.filter_eq_self.mpr fun reply hreply => by rw [h reply hreply]; rfl

theorem uninterrupted_cons_error {α : Type} (hkind : fault.kind = .interrupted)
    (replies : List (Except Fault α)) :
    uninterrupted (.error fault :: replies) = uninterrupted replies :=
  List.filter_cons_of_neg (by rw [interrupts_iff.mpr ⟨fault, hkind, rfl⟩]; exact Bool.false_ne_true)

theorem uninterrupted_append {α : Type} (front back : List (Except Fault α)) :
    uninterrupted (front ++ back) = uninterrupted front ++ uninterrupted back :=
  List.filter_append front back

theorem uninterrupted_map_ok {α β : Type} (f : β → α) (xs : List β) :
    uninterrupted (xs.map fun x => .ok (f x)) = xs.map fun x => .ok (f x) := by
  refine uninterrupted_eq_self fun reply hreply => ?_
  obtain ⟨x, -, rfl⟩ := List.mem_map.mp hreply
  rfl

/-- But for the interruptions, the replies are those of a source to which the same bytes arrive
without any. -/
theorem uninterrupted_replies (front : Front) (h : ∀ arrival ∈ arrivals, Regular arrival) :
    uninterrupted (front.before arrivals).replies =
      (front.before (uninterrupted arrivals)).replies := by
  induction arrivals generalizing front with
  | nil => exact uninterrupted_eq_self fun _ => front.interrupts_eq_false
  | cons arrival arrivals ih =>
    obtain ⟨harrival, hmore⟩ := List.forall_mem_cons.mp h
    rcases harrival with hinterrupts | ⟨piece, hpiece, rfl⟩
    · obtain ⟨fault, hkind, rfl⟩ := interrupts_iff.mp hinterrupts
      rw [uninterrupted_cons_error hkind]
      by_cases hwhole : Utf8.Valid front.bytes
      · -- the interruption is passed on, and the call is repeated
        obtain ⟨text, htext⟩ := Utf8.valid_iff.mp hwhole
        have hmore := ih .empty hmore
        rw [Front.before_empty, Front.before_empty] at hmore
        rw [front.replies_whole htext.symm, front.replies_whole htext.symm,
          replies_of_interruption hkind, uninterrupted_append, uninterrupted_map_ok,
          uninterrupted_cons_error hkind, hmore]
      · rw [front.replies_interrupted hkind hwhole]
        exact ih front hmore
    · have hkept : uninterrupted (.ok piece :: arrivals) = .ok piece :: uninterrupted arrivals :=
        List.filter_cons_of_pos rfl
      rw [hkept, ← front.before_snoc hpiece, ← front.before_snoc hpiece]
      exact ih (front.snoc piece hpiece) hmore

/-- Characters behind whole characters are whole characters just if all of them are, because the
encoding has no way to be cut differently. -/
theorem valid_append_iff {front back : List UInt8} (h : Utf8.Valid front) :
    Utf8.Valid (front ++ back) ↔ Utf8.Valid back := by
  obtain ⟨text, rfl⟩ := Utf8.valid_iff.mp h
  rw [Utf8.valid_iff, Utf8.valid_iff]
  constructor
  · rintro ⟨whole, hwhole⟩
    have hstuck : Utf8.Stuck [] := fun c hc => Utf8.encode_ne_nil c (List.prefix_nil.mp hc)
    obtain ⟨more, rfl⟩ : text <+: whole := by
      refine Utf8.prefix_of_stuck hstuck ?_
      rw [List.append_nil, hwhole]
      exact List.prefix_append _ _
    rw [List.flatMap_append] at hwhole
    exact ⟨more, List.append_cancel_left hwhole⟩
  · rintro ⟨more, rfl⟩
    exact ⟨text ++ more, List.flatMap_append⟩

/-- A fault that arrives with some bytes in front of it is the first arrival, or it comes behind
that one and the bytes of that one are in front, too. -/
theorem exists_fault_cons_iff (P : List UInt8 → Prop) {arrival : Arrival} :
    (∃ before behind, arrival :: arrivals = before ++ .error fault :: behind ∧ P (joined before)) ↔
      (arrival = .error fault ∧ P []) ∨
        ∃ before behind, arrivals = before ++ .error fault :: behind ∧
          P (joined [arrival] ++ joined before) := by
  constructor
  · rintro ⟨before, behind, heq, hbefore⟩
    cases before with
    | nil =>
      obtain ⟨rfl, -⟩ := List.cons.inj heq
      exact Or.inl ⟨rfl, hbefore⟩
    | cons first before =>
      obtain ⟨rfl, rfl⟩ := List.cons.inj heq
      refine Or.inr ⟨before, behind, rfl, ?_⟩
      rwa [joined, ← List.singleton_append, List.flatMap_append] at hbefore
  · rintro (⟨rfl, hnil⟩ | ⟨before, behind, rfl, hbefore⟩)
    · exact ⟨[], arrivals, rfl, hnil⟩
    · refine ⟨arrival :: before, behind, rfl, ?_⟩
      rwa [joined, ← List.singleton_append, List.flatMap_append]

/-- An interruption is passed on just where the bytes in front of it are whole characters. -/
theorem mem_replies_iff (front : Front) (h : ∀ arrival ∈ arrivals, Regular arrival)
    (hkind : fault.kind = .interrupted) :
    .error fault ∈ (front.before arrivals).replies ↔
      ∃ before behind, arrivals = before ++ .error fault :: behind ∧
        Utf8.Valid (front.bytes ++ joined before) := by
  induction arrivals generalizing front with
  | nil =>
    constructor
    · intro hmem
      have hfalse := front.interrupts_eq_false hmem
      rw [interrupts_iff.mpr ⟨fault, hkind, rfl⟩] at hfalse
      cases hfalse
    · rintro ⟨before, behind, hsplit, -⟩
      cases before <;> cases hsplit
  | cons arrival arrivals ih =>
    obtain ⟨harrival, hmore⟩ := List.forall_mem_cons.mp h
    rw [exists_fault_cons_iff fun bytes => Utf8.Valid (front.bytes ++ bytes), List.append_nil]
    rcases harrival with hinterrupts | ⟨piece, hpiece, rfl⟩
    · obtain ⟨other, hother, rfl⟩ := interrupts_iff.mp hinterrupts
      have hnil : joined [(.error other : Arrival)] = [] := rfl
      rw [hnil]
      by_cases hwhole : Utf8.Valid front.bytes
      · obtain ⟨text, htext⟩ := Utf8.valid_iff.mp hwhole
        have hih := ih .empty hmore
        rw [Front.before_empty] at hih
        rw [front.replies_whole htext.symm, replies_of_interruption hother, List.mem_append,
          List.mem_cons, hih]
        simp only [List.nil_append, valid_append_iff hwhole, hwhole, and_true]
        constructor
        · rintro (hchar | heq | hlater)
          · obtain ⟨c, -, hc⟩ := List.mem_map.mp hchar
            cases hc
          · exact Or.inl (congrArg Except.error (Except.error.inj heq).symm)
          · exact Or.inr hlater
        · rintro (heq | hlater)
          · exact Or.inr (Or.inl (congrArg Except.error (Except.error.inj heq).symm))
          · exact Or.inr (Or.inr hlater)
      · rw [front.replies_interrupted hother hwhole, ih front hmore]
        simp only [List.nil_append, hwhole, and_false, false_or]
    · have hpieceBytes : joined [(.ok piece : Arrival)] = piece := List.append_nil piece
      rw [← front.before_snoc hpiece, ih (front.snoc piece hpiece) hmore, front.bytes_snoc hpiece,
        hpieceBytes]
      simp only [List.append_assoc, reduceCtorEq, false_and, false_or]

/-! ### Runs -/

theorem head?_replies (s : ByteSource) : s.replies.head? = some (Source.read 1 s).1 := by
  rw [replies_eq]
  split <;> split <;> simp_all

/-- Where the replies are alike but for interruptions, so are the results of runs, unless a run is
interrupted. -/
theorem drive_of_uninterrupted {limit : Nat} {config : Config}
    (h : uninterrupted s.replies = s'.replies) :
    (drive limit config s).1 = (drive limit config s').1 ∨
      ∃ fault config', fault.kind = .interrupted ∧ .error fault ∈ s.replies ∧
        (drive limit config s).1 = .error (Config.interrupted config' fault) := by
  induction hn : s.size using Nat.strongRecOn generalizing s s' config with
  | ind n ih =>
    have hhead := head?_replies s'
    have hreplies := replies_eq s
    cases hread : Source.read 1 s with
    | mk reply rest =>
    rw [hread] at hreplies
    cases reply with
    | error fault =>
      dsimp only at hreplies
      by_cases hkind : fault.kind = .interrupted
      · rw [if_pos hkind] at hreplies
        refine Or.inr ⟨fault, config, hkind, hreplies ▸ List.mem_cons_self, ?_⟩
        rw [drive_of_error hread]
      · rw [if_neg hkind] at hreplies
        rw [hreplies, uninterrupted, List.filter_cons_of_pos (by simp [interrupts, hkind])] at h
        rw [← h] at hhead
        have hread' : Source.read 1 s' = (.error fault, (Source.read 1 s').2) :=
          Prod.ext (Option.some.inj hhead).symm rfl
        exact Or.inl (by rw [drive_of_error hread, drive_of_error hread'])
    | ok text =>
      dsimp only at hreplies
      by_cases htext : text.toList = []
      · obtain rfl : text = "" := String.toList_eq_nil_iff.mp htext
        rw [if_pos htext] at hreplies
        rw [hreplies, uninterrupted, List.filter_cons_of_pos rfl] at h
        rw [← h] at hhead
        have hread' : Source.read 1 s' = (.ok "", (Source.read 1 s').2) :=
          Prod.ext (Option.some.inj hhead).symm rfl
        exact Or.inl (by rw [drive_of_end hread, drive_of_end hread'])
      · rw [if_neg htext] at hreplies
        rw [hreplies, uninterrupted, List.filter_cons_of_pos rfl] at h
        rw [← h] at hhead
        have hread' : Source.read 1 s' = (.ok text, (Source.read 1 s').2) :=
          Prod.ext (Option.some.inj hhead).symm rfl
        have hreplies' := replies_eq s'
        rw [hread'] at hreplies'
        dsimp only at hreplies'
        rw [if_neg htext, ← h] at hreplies'
        have hmore := (List.cons.inj hreplies').2
        rw [drive_of_text hread htext, drive_of_text hread' htext]
        split
        · rcases ih _ (hn ▸ Source.size_lt hread htext) hmore rfl with heq | hfails
          · exact Or.inl heq
          · obtain ⟨fault, config', hkind, hmem, hresult⟩ := hfails
            exact Or.inr ⟨fault, config', hkind, hreplies ▸ List.mem_cons_of_mem _ hmem, hresult⟩
        · exact Or.inl rfl
        · exact Or.inl rfl

/-- No interruption comes where the bytes in front of it are whole characters. -/
def Unnoticed (arrivals : List Arrival) : Prop :=
  ∀ before fault behind, arrivals = before ++ .error fault :: behind → ¬Utf8.Valid (joined before)

/-- **Interruptions.** Calls for one character at a time, repeated where they are interrupted, get
the same replies as if nothing had been interrupted. An interruption is passed on just where the
bytes in front of it are whole characters. If there is none of this kind, the replies are the same
and so is the result of a run; otherwise the run may end with such an interruption. -/
theorem replies_of_interruptions {arrivals : List Arrival}
    (h : ∀ arrival ∈ arrivals, Regular arrival) :
    uninterrupted (ofArrivals arrivals).replies =
      (ofArrivals (uninterrupted arrivals)).replies ∧
    (∀ fault, fault.kind = .interrupted →
      (.error fault ∈ (ofArrivals arrivals).replies ↔
        ∃ before behind, arrivals = before ++ .error fault :: behind ∧
          Utf8.Valid (joined before))) ∧
    (Unnoticed arrivals →
      (ofArrivals arrivals).replies = (ofArrivals (uninterrupted arrivals)).replies ∧
      ∀ maxNesting, parse (ofArrivals arrivals) maxNesting =
        parse (ofArrivals (uninterrupted arrivals)) maxNesting) ∧
    ∀ maxNesting,
      parse (ofArrivals arrivals) maxNesting =
        parse (ofArrivals (uninterrupted arrivals)) maxNesting ∨
      ∃ fault before behind config, fault.kind = .interrupted ∧
        arrivals = before ++ .error fault :: behind ∧ Utf8.Valid (joined before) ∧
        parse (ofArrivals arrivals) maxNesting = .error (Config.interrupted config fault) := by
  have hreplies : uninterrupted (ofArrivals arrivals).replies =
      (ofArrivals (uninterrupted arrivals)).replies := uninterrupted_replies .empty h
  have hpassed : ∀ fault, fault.kind = .interrupted →
      (.error fault ∈ (ofArrivals arrivals).replies ↔
        ∃ before behind, arrivals = before ++ .error fault :: behind ∧
          Utf8.Valid (joined before)) :=
    fun fault hkind => mem_replies_iff .empty h hkind
  have hruns : ∀ maxNesting,
      parse (ofArrivals arrivals) maxNesting =
        parse (ofArrivals (uninterrupted arrivals)) maxNesting ∨
      ∃ fault before behind config, fault.kind = .interrupted ∧
        arrivals = before ++ .error fault :: behind ∧ Utf8.Valid (joined before) ∧
        parse (ofArrivals arrivals) maxNesting = .error (Config.interrupted config fault) := by
    intro maxNesting
    rcases @drive_of_uninterrupted _ _ maxNesting .initial hreplies with
      heq | ⟨fault, config, hkind, hmem, hresult⟩
    · exact Or.inl heq
    · obtain ⟨before, behind, hsplit, hvalid⟩ := (hpassed fault hkind).mp hmem
      exact Or.inr ⟨fault, before, behind, config, hkind, hsplit, hvalid, hresult⟩
  refine ⟨hreplies, hpassed, fun hunnoticed => ⟨?_, fun maxNesting => ?_⟩, hruns⟩
  · rw [← hreplies, uninterrupted_eq_self]
    intro reply hreply
    refine Bool.eq_false_iff.mpr fun hinterrupts => ?_
    obtain ⟨fault, hkind, rfl⟩ := interrupts_iff.mp hinterrupts
    obtain ⟨before, behind, hsplit, hvalid⟩ := (hpassed fault hkind).mp hreply
    exact hunnoticed before fault behind hsplit hvalid
  · rcases hruns maxNesting with heq | ⟨fault, before, behind, _, _, hsplit, hvalid, _⟩
    · exact heq
    · exact absurd hvalid (hunnoticed before fault behind hsplit)

/-- An interruption between the bytes of a character is not noticed: what is read is the same as
without it. -/
theorem replies_of_interruptions_within :
    (∀ arrival ∈ [.ok [0x78, 0x3D, 0x27, 0xE2], .error ⟨.interrupted, "again"⟩,
      .ok [0x82, 0xAC, 0x27, 0x3B]], Regular arrival) ∧
    Unnoticed [.ok [0x78, 0x3D, 0x27, 0xE2], .error ⟨.interrupted, "again"⟩,
      .ok [0x82, 0xAC, 0x27, 0x3B]] ∧
    parse (ofArrivals [.ok [0x78, 0x3D, 0x27, 0xE2], .error ⟨.interrupted, "again"⟩,
      .ok [0x82, 0xAC, 0x27, 0x3B]]) 4 =
      parse (ofArrivals [.ok [0x78, 0x3D, 0x27, 0xE2], .ok [0x82, 0xAC, 0x27, 0x3B]]) 4 := by
  have hregular : ∀ arrival ∈ [.ok [0x78, 0x3D, 0x27, 0xE2], .error ⟨.interrupted, "again"⟩,
      .ok [0x82, 0xAC, 0x27, 0x3B]], Regular arrival := by
    simp only [List.forall_mem_cons, List.not_mem_nil, false_implies, implies_true, and_true]
    exact ⟨Or.inr ⟨_, List.cons_ne_nil _ _, rfl⟩, Or.inl rfl,
      Or.inr ⟨_, List.cons_ne_nil _ _, rfl⟩⟩
  have hunnoticed : Unnoticed [.ok [0x78, 0x3D, 0x27, 0xE2], .error ⟨.interrupted, "again"⟩,
      .ok [0x82, 0xAC, 0x27, 0x3B]] := by
    intro before fault behind hsplit hvalid
    obtain rfl : before = [.ok [0x78, 0x3D, 0x27, 0xE2]] := by
      match before, hsplit with
      | [], hsplit => cases hsplit
      | [_], hsplit => cases hsplit; rfl
      | [_, _], hsplit => cases hsplit
      | _ :: _ :: _ :: before, hsplit => cases before <;> cases hsplit
    have hbytes : joined [.ok [0x78, 0x3D, 0x27, 0xE2]] =
        ['x', '=', '\''].flatMap Utf8.encode ++ [0xE2] := by decide
    have hstuck : Utf8.Stuck [0xE2] :=
      stuck_of_readChar (show (ofBytes [0xE2]).readChar.1 = .error .notUtf8 from rfl)
    rw [hbytes] at hvalid
    cases (Utf8.longest_of_stuck hstuck).valid_iff_tail.mp hvalid
  exact ⟨hregular, hunnoticed, ((replies_of_interruptions hregular).2.2.1 hunnoticed).2 4⟩

/-- An interruption between two characters is passed on, and a run may end with it, although the
same bytes without it are a text that is read. -/
theorem not_replies_of_interruptions :
    (¬∀ arrivals : List Arrival, (∀ arrival ∈ arrivals, Regular arrival) →
      (ofArrivals arrivals).replies = (ofArrivals (uninterrupted arrivals)).replies) ∧
    ¬∀ arrivals : List Arrival, (∀ arrival ∈ arrivals, Regular arrival) →
      parse (ofArrivals arrivals) = parse (ofArrivals (uninterrupted arrivals)) := by
  have hregular : ∀ arrival ∈ [.ok [0x78], .error ⟨.interrupted, "again"⟩, .ok [0x3D, 0x3B]],
      Regular arrival := by
    simp only [List.forall_mem_cons, List.not_mem_nil, false_implies, implies_true, and_true]
    exact ⟨Or.inr ⟨_, List.cons_ne_nil _ _, rfl⟩, Or.inl rfl,
      Or.inr ⟨_, List.cons_ne_nil _ _, rfl⟩⟩
  constructor
  · intro h
    have hkind : (Fault.mk .interrupted "again").kind = .interrupted := rfl
    have hmem := (mem_replies_iff .empty hregular hkind).mpr
      ⟨[.ok [0x78]], [.ok [0x3D, 0x3B]], rfl, Utf8.valid_iff.mpr ⟨['x'], by decide⟩⟩
    have hplain := (h _ hregular).trans (uninterrupted_replies .empty hregular).symm
    have hkept := (List.mem_filter.mp (hplain ▸ hmem)).2
    cases hkept
  · intro h
    have hfails : (parse (ofArrivals
        [.ok [0x78], .error ⟨.interrupted, "again"⟩, .ok [0x3D, 0x3B]])).isOk = false := by
      with_unfolding_all decide
    have hsucceeds : (parse (ofArrivals (uninterrupted
        [.ok [0x78], .error ⟨.interrupted, "again"⟩, .ok [0x3D, 0x3B]]))).isOk = true := by
      with_unfolding_all decide
    rw [h _ hregular, hsucceeds] at hfails
    cases hfails

end ByteSource

end LosslessEbnf
