import LosslessEbnf.Proofs.Refusals

/-!
# Sources of the same text

A text can be read from memory, from its bytes at hand, from its bytes as they arrive in pieces, or
from a source that gives one character at each call. All of them lead to the same result.

## Main Definitions

* `Utf8.bytes` — the bytes of a text
* `ByteSource.Front` — bytes that arrive in pieces in front of other arrivals
* `ByteSource.Serves` — the source has the given bytes left, in pieces none of which is empty

## Main Statements

* `ByteSource.Front.readChar` — the bytes of a character are put together, wherever they are cut and
  whatever arrives behind them
* `Delivers.drive_eq` — the result of a run is known from the characters that the source delivers
* `parse_eq_parseText_of_pieces` — all sources of a text are read alike

## Design Notes

What counts for a source of bytes is which bytes are left, not how they are spread over the buffer
and the arrivals. So each call is described by the bytes in front of it and behind it.
-/

namespace LosslessEbnf

/-! ### The bytes of a text -/

namespace Utf8

/-- The bytes of a text. -/
def bytes (text : String) : List UInt8 := text.toUTF8.data.toList

/-- The bytes of a text are those of its characters, one after the other. -/
theorem bytes_eq_flatMap (text : String) : bytes text = text.toList.flatMap encode := by
  have hencoded : text.toUTF8 = text.toList.utf8Encode := String.utf8Encode_toList.symm
  rw [bytes, hencoded, List.utf8Encode, List.data_toByteArray]
  rfl

theorem width?_ofNat {n : Nat} (h : n < 256) :
    width? (UInt8.ofNat n) =
      if n < 128 then some 1 else if n < 192 then none else if n < 224 then some 2
      else if n < 240 then some 3 else if n < 248 then some 4 else none := by
  have hn : (UInt8.ofNat n).toNat = n := Nat.mod_eq_of_lt h
  simp only [width?, UInt8.lt_iff_toNat_lt, hn]
  rfl

/-- The first byte of a character tells how many bytes the character has, so a source knows how many
more to take. -/
theorem exists_lead (c : Char) :
    ∃ lead rest, encode c = lead :: rest ∧ width? lead = some (encode c).length := by
  have hc : c.val.toNat < 1114112 := by
    have := c.valid
    simp only [UInt32.isValidChar, Nat.isValidChar] at this
    omega
  simp only [encode, String.utf8EncodeChar]
  change ∃ lead rest, _ = lead :: rest ∧ width? lead = some (List.length _)
  generalize c.val.toNat = v at hc ⊢
  -- one case for each number of bytes
  split
  · refine ⟨_, _, rfl, ?_⟩
    rw [width?_ofNat (by omega), if_pos (by omega)]
    rfl
  split
  · refine ⟨_, _, rfl, ?_⟩
    rw [width?_ofNat (by omega), if_neg (by omega), if_neg (by omega), if_pos (by omega)]
    rfl
  split
  · refine ⟨_, _, rfl, ?_⟩
    rw [width?_ofNat (by omega), if_neg (by omega), if_neg (by omega), if_neg (by omega),
      if_pos (by omega)]
    rfl
  · refine ⟨_, _, rfl, ?_⟩
    rw [width?_ofNat (by omega), if_neg (by omega), if_neg (by omega), if_neg (by omega),
      if_neg (by omega), if_pos (by omega)]
    rfl

end Utf8

/-! ### Bytes that arrive in pieces -/

namespace ByteSource

/-- Bytes of which some are at hand, and the others arrive in pieces, none of which is empty. -/
structure Front where
  /-- The bytes at hand. -/
  buffer : List UInt8
  /-- The pieces that arrive. -/
  pieces : List (List UInt8)
  /-- No piece is empty. -/
  ne_nil : ∀ piece ∈ pieces, piece ≠ []

namespace Front

/-- All of the bytes. -/
def bytes (front : Front) : List UInt8 := front.buffer ++ front.pieces.flatten

/-- The source in which the bytes stand in front of some arrivals. -/
def before (front : Front) (behind : List Arrival) : ByteSource :=
  ⟨front.buffer, front.pieces.map .ok ++ behind⟩

variable {front : Front} {bytes rest : List UInt8} {b : UInt8}

/-- Where there are no bytes, no pieces are left either. -/
theorem before_of_bytes_eq_nil (h : front.bytes = []) (behind : List Arrival) :
    front.before behind = ⟨[], behind⟩ := by
  obtain ⟨buffer, pieces, hpieces⟩ := front
  obtain ⟨rfl, hflatten⟩ := List.append_eq_nil_iff.mp h
  cases pieces with
  | nil => rfl
  | cons piece pieces =>
    rw [List.flatten_cons] at hflatten
    exact absurd (List.append_eq_nil_iff.mp hflatten).1 (hpieces piece List.mem_cons_self)

/-- If there are no bytes at hand, the first piece is taken over, or as much of it as fits in. -/
theorem exists_filled {piece : List UInt8} {pieces : List (List UInt8)}
    (h : ∀ other ∈ piece :: pieces, other ≠ []) :
    ∃ (first : UInt8) (more : List UInt8) (left : List (List UInt8)),
      piece.take capacity = first :: more ∧ (∀ other ∈ left, other ≠ []) ∧
      first :: more ++ left.flatten = piece ++ pieces.flatten ∧
      ∀ behind, putBack piece (pieces.map .ok ++ behind) = left.map .ok ++ behind := by
  obtain ⟨hpiece, hpieces⟩ := List.forall_mem_cons.mp h
  have hcut : piece.take capacity ++ piece.drop capacity = piece := List.take_append_drop _ _
  obtain ⟨first, more, htake⟩ : ∃ first more, piece.take capacity = first :: more := by
    cases piece with
    | nil => exact absurd rfl hpiece
    | cons first more => exact ⟨first, _, rfl⟩
  rw [htake] at hcut
  cases hdrop : piece.drop capacity with
  | nil =>
    rw [hdrop, List.append_nil] at hcut
    refine ⟨first, more, pieces, htake, hpieces, by rw [hcut], fun behind => ?_⟩
    rw [putBack, hdrop]
  | cons next rest =>
    refine ⟨first, more, (next :: rest) :: pieces, htake, ?_, ?_, fun behind => ?_⟩
    · exact List.forall_mem_cons.mpr ⟨List.cons_ne_nil _ _, hpieces⟩
    · rw [List.flatten_cons, ← List.append_assoc, ← hdrop, hcut]
    · rw [putBack, hdrop]
      rfl

/-- The look at the first byte takes nothing. It may fill the buffer, but the bytes in front stay
the same. -/
theorem peek (h : front.bytes = b :: rest) : ∃ front' : Front, front'.bytes = front.bytes ∧
    ∀ behind, (front.before behind).peek = (.ok (some b), front'.before behind) := by
  obtain ⟨buffer, pieces, hpieces⟩ := front
  cases buffer with
  | cons a buffer =>
    obtain ⟨rfl, -⟩ := List.cons.inj h
    exact ⟨_, rfl, fun behind => rfl⟩
  | nil =>
    cases pieces with
    | nil => cases h
    | cons piece pieces =>
      obtain ⟨first, more, left, htake, hleft, hbytes, hputBack⟩ := exists_filled hpieces
      obtain ⟨rfl, -⟩ := List.cons.inj (hbytes.trans h)
      refine ⟨⟨first :: more, left, hleft⟩, hbytes, fun behind => ?_⟩
      have hfill : (before ⟨[], piece :: pieces, hpieces⟩ behind).fill =
          (.ok (), ⟨piece.take capacity, putBack piece (pieces.map .ok ++ behind)⟩) := rfl
      rw [ByteSource.peek, hfill, htake, hputBack]
      rfl

/-- The next byte is taken, be it in the buffer or at the beginning of the next piece. -/
theorem takeByte (h : front.bytes = b :: rest) : ∃ front' : Front, front'.bytes = rest ∧
    ∀ behind, (front.before behind).takeByte = (.ok (some b), front'.before behind) := by
  obtain ⟨buffer, pieces, hpieces⟩ := front
  cases buffer with
  | cons a buffer =>
    obtain ⟨rfl, hrest⟩ := List.cons.inj h
    exact ⟨⟨buffer, pieces, hpieces⟩, hrest, fun behind => rfl⟩
  | nil =>
    cases pieces with
    | nil => cases h
    | cons piece pieces =>
      obtain ⟨first, more, left, htake, hleft, hbytes, hputBack⟩ := exists_filled hpieces
      obtain ⟨rfl, hrest⟩ := List.cons.inj (hbytes.trans h)
      refine ⟨⟨more, left, hleft⟩, hrest, fun behind => ?_⟩
      rw [before, ByteSource.takeByte, List.map_cons, List.cons_append, awaitByte, htake]
      dsimp only
      rw [hputBack]
      rfl

/-- As many bytes as are asked for are taken, if there are so many. -/
theorem take (h : front.bytes = bytes ++ rest) : ∃ front' : Front, front'.bytes = rest ∧
    ∀ behind, ByteSource.take bytes.length (front.before behind) =
      (.ok bytes, front'.before behind) := by
  induction bytes generalizing front with
  | nil => exact ⟨front, h, fun behind => rfl⟩
  | cons b bytes ih =>
    obtain ⟨middle, hmiddle, hbyte⟩ := front.takeByte h
    obtain ⟨front', hrest, htake⟩ := ih hmiddle
    refine ⟨front', hrest, fun behind => ?_⟩
    rw [List.length_cons, ByteSource.take, hbyte]
    simp only [htake]

/-- The bytes of a character are put together, however they are spread over the buffer and the
pieces. -/
theorem readChar {c : Char} (h : front.bytes = Utf8.encode c ++ rest) :
    ∃ front' : Front, front'.bytes = rest ∧
      ∀ behind, (front.before behind).readChar = (.ok (some c), front'.before behind) := by
  obtain ⟨lead, more, hencode, hwidth⟩ := Utf8.exists_lead c
  have hbytes : front.bytes = lead :: (more ++ rest) := by rw [h, hencode, List.cons_append]
  obtain ⟨middle, hmiddle, hpeek⟩ := front.peek hbytes
  obtain ⟨front', hrest, htake⟩ := middle.take (hmiddle.trans h)
  refine ⟨front', hrest, fun behind => ?_⟩
  rw [ByteSource.readChar, hpeek]
  simp only [hwidth, htake, Utf8.decode?_encode]

end Front

/-- The source has the given bytes left. They arrive in pieces, none of which is empty, and no call
fails. -/
def Serves (s : ByteSource) (bytes : List UInt8) : Prop :=
  ∃ pieces : List (List UInt8), s.arrivals = pieces.map .ok ∧ (∀ piece ∈ pieces, piece ≠ []) ∧
    s.buffer ++ pieces.flatten = bytes

theorem serves_ofBytes (bytes : List UInt8) : (ofBytes bytes).Serves bytes :=
  ⟨[], rfl, nofun, List.append_nil bytes⟩

theorem serves_ofArrivals {pieces : List (List UInt8)} (h : ∀ piece ∈ pieces, piece ≠ []) :
    (ofArrivals (pieces.map .ok)).Serves pieces.flatten :=
  ⟨pieces, rfl, h, rfl⟩

theorem Front.serves (front : Front) : (front.before []).Serves front.bytes :=
  ⟨front.pieces, List.append_nil _, front.ne_nil, rfl⟩

namespace Serves

variable {s : ByteSource} {bytes rest : List UInt8}

theorem exists_front (h : s.Serves bytes) :
    ∃ front : Front, s = front.before [] ∧ front.bytes = bytes := by
  obtain ⟨buffer, arrivals⟩ := s
  obtain ⟨pieces, rfl, hpieces, rfl⟩ := h
  exact ⟨⟨buffer, pieces, hpieces⟩, by rw [Front.before, List.append_nil], rfl⟩

/-- A source that serves the bytes of a character first replies with it, and serves what follows. -/
theorem readChar {c : Char} (h : s.Serves (Utf8.encode c ++ rest)) :
    ∃ s', s.readChar = (.ok (some c), s') ∧ s'.Serves rest := by
  obtain ⟨front, rfl, hbytes⟩ := h.exists_front
  obtain ⟨front', rfl, hread⟩ := front.readChar hbytes
  exact ⟨_, hread [], front'.serves⟩

/-- Where no bytes are left there is no character. -/
theorem readChar_nil (h : s.Serves []) : ∃ s', s.readChar = (.ok none, s') := by
  obtain ⟨front, rfl, hbytes⟩ := h.exists_front
  rw [Front.before_of_bytes_eq_nil hbytes]
  exact ⟨_, rfl⟩

/-- A source that has the bytes of a text left delivers the text. -/
theorem delivers {text : List Char} (h : s.Serves (text.flatMap Utf8.encode)) :
    Delivers s text none := by
  induction text generalizing s with
  | nil =>
    obtain ⟨s', hread⟩ := h.readChar_nil
    have hend : Source.read 1 s = (.ok "", s') := by simp only [Source.read, readChars, hread]
    exact .ended hend
  | cons c text ih =>
    rw [List.flatMap_cons] at h
    obtain ⟨s', hread, hs'⟩ := h.readChar
    have hchar : Source.read 1 s = (.ok (String.singleton c), s') := by
      simp only [Source.read, readChars, hread]
      rfl
    exact .char hchar (ih hs')

end Serves

end ByteSource

/-! ### The results -/

/-- The result of a run is known from the characters that the source delivers. How they are cut into
replies makes no difference. -/
theorem Delivers.drive_eq {σ : Type} [Source σ] {source : σ} {text : List Char} {limit : Nat}
    {config : Config} (h : Delivers source text none) :
    (drive limit config source).1 = runText limit config text := by
  induction text generalizing source config with
  | nil =>
    cases h with
    | ended read => rw [drive_of_end read, runText_nil]
  | cons c text ih =>
    cases h with
    | char read more =>
      rw [drive_of_char read, runText_cons]
      cases settle limit ⟨some c, config.position.after c⟩ config.tree config.frames with
      | waiting tree frames => exact ih more
      | accepted tree => rfl
      | rejected tree cause => rfl

/-- A source that delivers a text is read as the text is. -/
theorem Delivers.parse_eq {σ : Type} [Source σ] {source : σ} {text : String}
    (h : Delivers source text.toList none) (maxNesting : Nat) :
    parse source maxNesting = parseText text maxNesting := by
  rw [parseText_eq, parse, parseFrom, h.drive_eq]

/-- Replies of one character each. -/
def Script.ofString (text : String) : Script :=
  ⟨text.toList.map fun c => .ok (String.singleton c)⟩

theorem delivers_replies (text : List Char) :
    Delivers (Script.mk (text.map fun c => .ok (String.singleton c))) text none := by
  induction text with
  | nil => exact .ended (show Source.read 1 (Script.mk []) = (.ok "", ⟨[]⟩) from rfl)
  | cons c text ih => exact .char rfl ih

/-- **Sources.** A text is read alike from memory, from its bytes at hand, from its bytes as they
arrive in pieces, however they are cut, and from single characters. -/
theorem parse_eq_parseText_of_pieces {text : String} {pieces : List (List UInt8)}
    (hpieces : ∀ piece ∈ pieces, piece ≠ []) (hbytes : pieces.flatten = Utf8.bytes text)
    (maxNesting : Nat) :
    parse (ByteSource.ofBytes (Utf8.bytes text)) maxNesting = parseText text maxNesting ∧
      parse (ByteSource.ofArrivals (pieces.map .ok)) maxNesting = parseText text maxNesting ∧
      parse (Script.ofString text) maxNesting = parseText text maxNesting := by
  have hserved : ∀ {s : ByteSource}, s.Serves (Utf8.bytes text) → Delivers s text.toList none := by
    intro s hs
    rw [Utf8.bytes_eq_flatMap] at hs
    exact hs.delivers
  refine ⟨?_, ?_, ?_⟩
  · exact (hserved (ByteSource.serves_ofBytes _)).parse_eq maxNesting
  · have harrivals := ByteSource.serves_ofArrivals hpieces
    rw [hbytes] at harrivals
    exact (hserved harrivals).parse_eq maxNesting
  · exact (delivers_replies text.toList).parse_eq maxNesting

/-- A character of three bytes of which the last two arrive later, each with another piece. -/
theorem parse_eq_parseText_of_pieces_split :
    (∀ piece ∈ [[0x78, 0x3D, 0x27, 0xE2], [0x82], [0xAC, 0x27, 0x3B]], piece ≠ []) ∧
      [[0x78, 0x3D, 0x27, 0xE2], [0x82], [0xAC, 0x27, 0x3B]].flatten = Utf8.bytes "x='€';" ∧
      parse (ByteSource.ofBytes (Utf8.bytes "x='€';")) 4 = parseText "x='€';" 4 ∧
      parse (ByteSource.ofArrivals
        [.ok [0x78, 0x3D, 0x27, 0xE2], .ok [0x82], .ok [0xAC, 0x27, 0x3B]]) 4 =
          parseText "x='€';" 4 ∧
      parse (Script.ofString "x='€';") 4 = parseText "x='€';" 4 :=
  ⟨by decide, by decide, @parse_eq_parseText_of_pieces "x='€';"
    [[0x78, 0x3D, 0x27, 0xE2], [0x82], [0xAC, 0x27, 0x3B]] (by decide) (by decide) 4⟩

end LosslessEbnf
