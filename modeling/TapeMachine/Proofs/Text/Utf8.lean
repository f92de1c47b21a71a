import Mathlib.Data.List.Induction
import Mathlib.Tactic.SplitIfs
import TapeMachine.Text.Utf8

/-!
# Decoding in parts

Inside a character the bytes end with its lead byte and tail bytes (`endsInside_of_inside`).
So a byte string may be decoded in two parts if the first ends between characters, or if
the second does not begin with a tail byte (`decodeChars_append`). Text that was encoded
is decoded as itself (`decode_encode`).
-/

namespace TapeMachine.Text.Utf8

/-! ## Bytes -/

theorem isTail_iff (b : UInt8) : isTail b = true ↔ 0x80 ≤ b.toNat ∧ b.toNat < 0xC0 := by
  simp [isTail, UInt8.le_iff_toNat_le, UInt8.lt_iff_toNat_lt]

/-- What each byte announces. -/
theorem announcedLength_cases (b : UInt8) :
    (0xC0 ≤ b.toNat ∧ b.toNat < 0xE0 ∧ announcedLength b = 2) ∨
      (0xE0 ≤ b.toNat ∧ b.toNat < 0xF0 ∧ announcedLength b = 3) ∨
        (0xF0 ≤ b.toNat ∧ b.toNat < 0xF8 ∧ announcedLength b = 4) ∨
          ((b.toNat < 0xC0 ∨ 0xF8 ≤ b.toNat) ∧ announcedLength b = 0) := by
  simp only [announcedLength, UInt8.le_iff_toNat_le, UInt8.lt_iff_toNat_lt, UInt8.reduceToNat]
  split_ifs <;> omega

/-- Only a byte that is no tail announces a sequence. -/
theorem isTail_eq_false_of_announced {b : UInt8} (announced : 0 < announcedLength b) :
    isTail b = false := by
  rw [← Bool.not_eq_true, isTail_iff]
  have shape := announcedLength_cases b
  omega

/-- What is true of every character that is begun: a byte is owed, and it is a tail. -/
structure Unfinished.Sound (u : Unfinished) : Prop where
  owed : 1 ≤ u.owed
  low : 0x80 ≤ u.low
  high : u.high ≤ 0xBF

theorem Unfinished.Sound.isTail {u : Unfinished} (sound : u.Sound) {b : UInt8}
    (within : u.low ≤ b ∧ b ≤ u.high) : isTail b = true := by
  obtain ⟨_, low, high⟩ := sound
  rw [isTail_iff]
  simp only [UInt8.le_iff_toNat_le, UInt8.reduceToNat] at low high within
  omega

/-- A lead byte owes what it announces. -/
theorem lead?_eq_some {b : UInt8} {u : Unfinished} (begun : lead? b = some u) :
    u.Sound ∧ announcedLength b = u.owed + 1 := by
  have shape := announcedLength_cases b
  unfold lead? at begun
  split_ifs at begun
  all_goals
    obtain rfl := Option.some.inj begun
    refine ⟨⟨by simp, by simp, by simp⟩, ?_⟩
    simp only [UInt8.le_iff_toNat_le, ← UInt8.toNat_inj, UInt8.reduceToNat] at *
    omega

/-! ## The machine -/

namespace Decoder

/-- How a byte is taken inside a character: it may end it, go on with it, or come
after it. -/
theorem push_inside (u : Unfinished) (written : List Char) (b : UInt8) :
    push ⟨some u, written⟩ b =
      if u.low ≤ b ∧ b ≤ u.high then
        if u.owed ≤ 1 then ⟨none, Char.ofNat (u.bits * 64 + (b.toNat - 0x80)) :: written⟩
        else ⟨some ⟨u.bits * 64 + (b.toNat - 0x80), u.owed - 1, 0x80, 0xBF⟩, written⟩
      else push ⟨none, replacement :: written⟩ b := rfl

/-- The same place in a character, after earlier text. -/
def behind (d : Decoder) (earlier : List Char) : Decoder :=
  ⟨d.inside, d.written ++ earlier.reverse⟩

theorem push_behind (d : Decoder) (earlier : List Char) (b : UInt8) :
    (d.behind earlier).push b = (d.push b).behind earlier := by
  have between (written : List Char) :
      (behind ⟨none, written⟩ earlier).push b = (push ⟨none, written⟩ b).behind earlier := by
    show start _ b = (start _ b).behind earlier
    unfold start
    split
    · rfl
    · split
      · rfl
      · rfl
  obtain ⟨_ | u, written⟩ := d
  · exact between written
  · rw [behind, push_inside, push_inside]
    split
    · split
      · rfl
      · rfl
    · exact between (replacement :: written)

/-- What was written before has no bearing on how bytes are decoded. -/
theorem finish_foldl_behind (d : Decoder) (earlier : List Char) (bytes : List UInt8) :
    (bytes.foldl push (d.behind earlier)).finish = earlier ++ (bytes.foldl push d).finish := by
  induction bytes generalizing d with
  | nil => obtain ⟨_ | _, written⟩ := d <;> simp [behind, finish]
  | cons b rest ih => rw [List.foldl_cons, List.foldl_cons, push_behind, ih]

theorem finish_foldl (written : List Char) (bytes : List UInt8) :
    (bytes.foldl push ⟨none, written⟩).finish = written.reverse ++ decodeChars bytes := by
  have same := finish_foldl_behind {} written.reverse bytes
  rw [behind, List.reverse_reverse] at same
  exact same

/-- A character that is begun can go on only with a tail byte. -/
theorem push_of_not_tail {u : Unfinished} (sound : u.Sound) (written : List Char) {b : UInt8}
    (other : isTail b = false) :
    push ⟨some u, written⟩ b = push ⟨none, replacement :: written⟩ b := by
  have outside : ¬ (u.low ≤ b ∧ b ≤ u.high) := by
    intro within
    rw [sound.isTail within] at other
    cases other
  rw [push_inside, if_neg outside]

theorem lead?_of_inside_push {written : List Char} {b : UInt8} {u : Unfinished}
    (begun : (push ⟨none, written⟩ b).inside = some u) : lead? b = some u := by
  have begun : (start ⟨none, written⟩ b).inside = some u := begun
  unfold start at begun
  split at begun
  · cases begun
  · split at begun
    · rename_i leads
      rw [leads]
      exact begun
    · cases begun

end Decoder

/-- A lead byte with tail bytes behind it, fewer than it announces. -/
structure Partial (lead : UInt8) (tails : List UInt8) : Prop where
  tail : ∀ b ∈ tails, isTail b = true
  short : tails.length + 1 < announcedLength lead

theorem Partial.lead_not_tail {lead : UInt8} {tails : List UInt8} (begun : Partial lead tails) :
    isTail lead = false :=
  isTail_eq_false_of_announced (Nat.lt_of_le_of_lt (Nat.zero_le _) begun.short)

/-- The bytes end with the lead byte of a character and its tail bytes so far. -/
def EndsInside (bytes : List UInt8) (u : Unfinished) : Prop :=
  u.Sound ∧ ∃ front lead tails, bytes = front ++ lead :: tails ∧ Partial lead tails ∧
    announcedLength lead = tails.length + 1 + u.owed

theorem endsInside_of_lead (bytes : List UInt8) {b : UInt8} {u : Unfinished}
    (begun : lead? b = some u) : EndsInside (bytes ++ [b]) u := by
  obtain ⟨sound, announced⟩ := lead?_eq_some begun
  have owed := sound.owed
  refine ⟨sound, bytes, b, [], rfl, ⟨by simp, ?_⟩, ?_⟩
  · rw [announced, List.length_nil]
    omega
  · rw [announced, List.length_nil]
    omega

theorem EndsInside.concat {bytes : List UInt8} {u : Unfinished} (ends : EndsInside bytes u)
    {b : UInt8} (within : u.low ≤ b ∧ b ≤ u.high) (more : 1 < u.owed) (bits : Nat) :
    EndsInside (bytes ++ [b]) ⟨bits, u.owed - 1, 0x80, 0xBF⟩ := by
  obtain ⟨sound, front, lead, tails, rfl, begun, announced⟩ := ends
  have sound' : Unfinished.Sound ⟨bits, u.owed - 1, 0x80, 0xBF⟩ :=
    ⟨Nat.le_sub_of_add_le more, by simp, by simp⟩
  refine ⟨sound', front, lead, tails ++ [b], by simp, ⟨?_, ?_⟩, ?_⟩
  · intro c among
    rcases List.mem_append.1 among with before | last
    · exact begun.tail c before
    · rw [List.mem_singleton.1 last]
      exact sound.isTail within
  · rw [announced, List.length_append, List.length_singleton]
    omega
  · rw [announced, List.length_append, List.length_singleton]
    dsimp only
    omega

theorem endsInside_of_inside {bytes : List UInt8} {u : Unfinished}
    (inside : (bytes.foldl Decoder.push {}).inside = some u) : EndsInside bytes u := by
  induction bytes using List.reverseRecOn generalizing u with
  | nil => cases inside
  | append_singleton bytes b ih =>
    rw [List.foldl_append, List.foldl_cons, List.foldl_nil] at inside
    cases state : bytes.foldl Decoder.push {} with
    | mk character written =>
      rw [state] at inside ih
      cases character with
      | none => exact endsInside_of_lead bytes (Decoder.lead?_of_inside_push inside)
      | some earlier =>
        rw [Decoder.push_inside] at inside
        split at inside
        · rename_i within
          split at inside
          · cases inside
          · rename_i more
            obtain rfl := Option.some.inj inside
            exact (ih rfl).concat within (Nat.lt_of_not_le more) _
        · -- The byte does not go on with the character, and begins another.
          exact endsInside_of_lead bytes (Decoder.lead?_of_inside_push inside)

/-! ## Two parts -/

/-- Nothing of a character that the first bytes end inside of is in those behind them. -/
def Apart (front back : List UInt8) : Prop :=
  (front.foldl Decoder.push {}).inside = none ∨ ∀ b ∈ back.head?, isTail b = false

theorem decodeChars_append {front back : List UInt8} (apart : Apart front back) :
    decodeChars (front ++ back) = decodeChars front ++ decodeChars back := by
  rw [decodeChars, decodeChars, List.foldl_append]
  cases state : front.foldl Decoder.push {} with
  | mk character written =>
    cases character with
    | none => exact Decoder.finish_foldl written back
    | some u =>
      have sound := (endsInside_of_inside (by rw [state])).1
      cases back with
      | nil => exact (List.append_nil _).symm
      | cons b rest =>
        have other : isTail b = false := by
          rcases apart with inside | begins
          · rw [state] at inside
            cases inside
          · exact begins b rfl
        rw [List.foldl_cons, Decoder.push_of_not_tail sound written other, ← List.foldl_cons,
          Decoder.finish_foldl]
        rfl

theorem Apart.take {front back : List UInt8} (apart : Apart front back) (count : Nat) :
    Apart front (back.take count) := by
  rcases apart with between | begins
  · exact .inl between
  · refine .inr ?_
    intro b first
    cases back with
    | nil => simp at first
    | cons c rest =>
      cases count with
      | zero => cases first
      | succ count => exact begins b first

/-! ## Encoded text -/

theorem lead?_two {b : UInt8} (least : 0xC2 ≤ b.toNat) (most : b.toNat ≤ 0xDF) :
    lead? b = some ⟨b.toNat - 0xC0, 1, 0x80, 0xBF⟩ := by
  unfold lead?
  rw [if_pos ⟨UInt8.le_iff_toNat_le.2 least, UInt8.le_iff_toNat_le.2 most⟩]

theorem lead?_three {b : UInt8} (least : 0xE0 ≤ b.toNat) (most : b.toNat ≤ 0xEF) :
    lead? b = some ⟨b.toNat - 0xE0, 2, if b.toNat = 0xE0 then 0xA0 else 0x80,
      if b.toNat = 0xED then 0x9F else 0xBF⟩ := by
  have two : ¬ (0xC2 ≤ b.toNat ∧ b.toNat ≤ 0xDF) := by omega
  simp only [lead?, UInt8.le_iff_toNat_le, ← UInt8.toNat_inj, UInt8.reduceToNat, if_neg two]
  by_cases first : b.toNat = 0xE0
  · simp [first]
  · by_cases surrogates : b.toNat = 0xED
    · simp [surrogates]
    · have others : 0xE1 ≤ b.toNat ∧ b.toNat ≤ 0xEF := by omega
      simp [first, surrogates, others]

theorem lead?_four {b : UInt8} (least : 0xF0 ≤ b.toNat) (most : b.toNat ≤ 0xF4) :
    lead? b = some ⟨b.toNat - 0xF0, 3, if b.toNat = 0xF0 then 0x90 else 0x80,
      if b.toNat = 0xF4 then 0x8F else 0xBF⟩ := by
  have two : ¬ (0xC2 ≤ b.toNat ∧ b.toNat ≤ 0xDF) := by omega
  have three : b.toNat ≠ 0xE0 ∧ b.toNat ≠ 0xED ∧ ¬ (0xE1 ≤ b.toNat ∧ b.toNat ≤ 0xEF) := by omega
  simp only [lead?, UInt8.le_iff_toNat_le, ← UInt8.toNat_inj, UInt8.reduceToNat, if_neg two,
    if_neg three.1, if_neg three.2.1, if_neg three.2.2]
  by_cases first : b.toNat = 0xF0
  · simp [first]
  · by_cases last : b.toNat = 0xF4
    · simp [last]
    · have others : 0xF1 ≤ b.toNat ∧ b.toNat ≤ 0xF3 := by omega
      simp [first, last, others]

namespace Decoder

theorem push_lead {b : UInt8} {u : Unfinished} (begun : lead? b = some u) (high : 0x80 ≤ b.toNat)
    (written : List Char) : push ⟨none, written⟩ b = ⟨some u, written⟩ := by
  have notAscii : ¬ b < 0x80 := by
    rw [UInt8.lt_iff_toNat_lt]
    exact Nat.not_lt.2 high
  show start _ b = _
  rw [start, if_neg notAscii, begun]

theorem push_within {bits owed : Nat} {low high b : UInt8} (within : low ≤ b ∧ b ≤ high)
    (written : List Char) :
    push ⟨some ⟨bits, owed + 2, low, high⟩, written⟩ b =
      ⟨some ⟨bits * 64 + (b.toNat - 0x80), owed + 1, 0x80, 0xBF⟩, written⟩ := by
  show (if _ then _ else _) = _
  rw [if_pos within]
  rfl

theorem push_last {bits : Nat} {low high b : UInt8} (within : low ≤ b ∧ b ≤ high)
    (written : List Char) :
    push ⟨some ⟨bits, 1, low, high⟩, written⟩ b =
      ⟨none, Char.ofNat (bits * 64 + (b.toNat - 0x80)) :: written⟩ := by
  show (if _ then _ else _) = _
  rw [if_pos within]
  rfl

end Decoder

/-- The six bits in a tail byte. -/
theorem toNat_tail (n : Nat) : (UInt8.ofNat (n % 64 + 128)).toNat = n % 64 + 128 :=
  UInt8.toNat_ofNat_of_lt' (by show _ < 256; omega)

theorem tail_within (n : Nat) :
    0x80 ≤ UInt8.ofNat (n % 64 + 128) ∧ UInt8.ofNat (n % 64 + 128) ≤ 0xBF := by
  rw [UInt8.le_iff_toNat_le, UInt8.le_iff_toNat_le, toNat_tail]
  show 128 ≤ _ ∧ _ ≤ 191
  omega

/-- A second byte may have to keep to a narrower range. -/
theorem second_within (n : Nat) (first last : Prop) [Decidable first] [Decidable last]
    (low high : UInt8) (least : first → low.toNat ≤ n % 64 + 128)
    (most : last → n % 64 + 128 ≤ high.toNat) :
    (if first then low else 0x80) ≤ UInt8.ofNat (n % 64 + 128) ∧
      UInt8.ofNat (n % 64 + 128) ≤ (if last then high else 0xBF) := by
  obtain ⟨above, below⟩ := tail_within n
  constructor
  · split_ifs with narrow
    · rw [UInt8.le_iff_toNat_le, toNat_tail]
      exact least narrow
    · exact above
  · split_ifs with narrow
    · rw [UInt8.le_iff_toNat_le, toNat_tail]
      exact most narrow
    · exact below

section Scalars

variable {v : Nat}

theorem foldl_push_one (most : v ≤ 0x7F) :
    [UInt8.ofNat v].foldl Decoder.push {} = ⟨none, [Char.ofNat v]⟩ := by
  have byte : (UInt8.ofNat v).toNat = v := UInt8.toNat_ofNat_of_lt' (by show _ < 256; omega)
  have ascii : UInt8.ofNat v < 0x80 := by
    rw [UInt8.lt_iff_toNat_lt, byte]
    exact Nat.lt_succ_of_le most
  show Decoder.start {} _ = _
  rw [Decoder.start, if_pos ascii, byte]
  rfl

theorem foldl_push_two (least : 0x7F < v) (most : v ≤ 0x7FF) :
    [UInt8.ofNat (v / 64 % 32 + 192), UInt8.ofNat (v % 64 + 128)].foldl Decoder.push {} =
      ⟨none, [Char.ofNat v]⟩ := by
  have lead : (UInt8.ofNat (v / 64 % 32 + 192)).toNat = v / 64 + 192 := by
    rw [UInt8.toNat_ofNat_of_lt' (by show _ < 256; omega)]
    omega
  have begun := lead?_two (b := UInt8.ofNat (v / 64 % 32 + 192)) (by omega) (by omega)
  have bits : (v / 64 + 192 - 0xC0) * 64 + (v % 64 + 128 - 0x80) = v := by omega
  rw [List.foldl_cons, Decoder.push_lead begun (by omega), List.foldl_cons,
    Decoder.push_last (tail_within v), List.foldl_nil, toNat_tail, lead, bits]

theorem foldl_push_three (least : 0x7FF < v) (most : v ≤ 0xFFFF)
    (scalar : v < 0xD800 ∨ 0xDFFF < v) :
    [UInt8.ofNat (v / 4096 % 16 + 224), UInt8.ofNat (v / 64 % 64 + 128),
        UInt8.ofNat (v % 64 + 128)].foldl Decoder.push {} = ⟨none, [Char.ofNat v]⟩ := by
  have lead : (UInt8.ofNat (v / 4096 % 16 + 224)).toNat = v / 4096 + 224 := by
    rw [UInt8.toNat_ofNat_of_lt' (by show _ < 256; omega)]
    omega
  have begun := lead?_three (b := UInt8.ofNat (v / 4096 % 16 + 224)) (by omega) (by omega)
  rw [lead] at begun
  -- The second byte excludes short values, and the surrogates.
  have second := second_within (v / 64) (v / 4096 + 224 = 0xE0) (v / 4096 + 224 = 0xED) 0xA0 0x9F
    (by show _ → 160 ≤ _; omega) (by show _ → _ ≤ 159; omega)
  have bits : ((v / 4096 + 224 - 0xE0) * 64 + (v / 64 % 64 + 128 - 0x80)) * 64 +
      (v % 64 + 128 - 0x80) = v := by omega
  rw [List.foldl_cons, Decoder.push_lead begun (by omega), List.foldl_cons,
    Decoder.push_within second, List.foldl_cons, Decoder.push_last (tail_within v),
    List.foldl_nil, toNat_tail, toNat_tail, bits]

theorem foldl_push_four (least : 0xFFFF < v) (most : v < 0x110000) :
    [UInt8.ofNat (v / 262144 % 8 + 240), UInt8.ofNat (v / 4096 % 64 + 128),
        UInt8.ofNat (v / 64 % 64 + 128), UInt8.ofNat (v % 64 + 128)].foldl Decoder.push {} =
      ⟨none, [Char.ofNat v]⟩ := by
  have lead : (UInt8.ofNat (v / 262144 % 8 + 240)).toNat = v / 262144 + 240 := by
    rw [UInt8.toNat_ofNat_of_lt' (by show _ < 256; omega)]
    omega
  have begun := lead?_four (b := UInt8.ofNat (v / 262144 % 8 + 240)) (by omega) (by omega)
  rw [lead] at begun
  have second := second_within (v / 4096) (v / 262144 + 240 = 0xF0) (v / 262144 + 240 = 0xF4)
    0x90 0x8F
    (by show _ → 144 ≤ _; omega) (by show _ → _ ≤ 143; omega)
  have bits : (((v / 262144 + 240 - 0xF0) * 64 + (v / 4096 % 64 + 128 - 0x80)) * 64 +
      (v / 64 % 64 + 128 - 0x80)) * 64 + (v % 64 + 128 - 0x80) = v := by omega
  rw [List.foldl_cons, Decoder.push_lead begun (by omega), List.foldl_cons,
    Decoder.push_within second, List.foldl_cons, Decoder.push_within (tail_within (v / 64)),
    List.foldl_cons, Decoder.push_last (tail_within v), List.foldl_nil, toNat_tail, toNat_tail,
    toNat_tail, bits]

end Scalars

/-- A character is decoded as itself. -/
theorem foldl_push_utf8EncodeChar (c : Char) :
    (String.utf8EncodeChar c).foldl Decoder.push {} = ⟨none, [c]⟩ := by
  have scalar : c.val.toNat < 0xD800 ∨ 0xDFFF < c.val.toNat ∧ c.val.toNat < 0x110000 := c.valid
  have same : Char.ofNat c.val.toNat = c := Char.ofNat_toNat c
  simp only [String.utf8EncodeChar]
  generalize c.val.toNat = v at scalar same
  subst same
  split_ifs with one two three
  · exact foldl_push_one one
  · exact foldl_push_two (by omega) two
  · exact foldl_push_three (by omega) three (by omega)
  · exact foldl_push_four (by omega) (by omega)

/-- Encoded text is decoded as itself. -/
theorem decode_encode (text : String) : decode (encode text) = text := by
  have decoded (chars : List Char) :
      decodeChars (chars.flatMap String.utf8EncodeChar) = chars := by
    induction chars with
    | nil => rfl
    | cons c rest ih =>
      have character := foldl_push_utf8EncodeChar c
      rw [List.flatMap_cons, decodeChars_append (.inl (by rw [character])), ih, decodeChars,
        character]
      rfl
  rw [decode, encode, decoded, String.ofList_toList]

end TapeMachine.Text.Utf8
