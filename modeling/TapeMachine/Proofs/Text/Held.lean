import TapeMachine.Proofs.Text.Utf8

/-!
# Bytes that wait

What a reader keeps back of a byte string is an unfinished character. It can be decoded
apart from what came before it, whatever comes next (`apart_ready`), and what is kept back
of a longer byte string depends on what came before through it alone (`ready_append`,
`held_append`).
-/

namespace TapeMachine.Text.Utf8

/-! ## What is kept back -/

/-- The search for a lead byte goes on alike in bytes that it goes on alike in. -/
theorem heldFrom_append_congr {back back' : List UInt8} {limit : Nat}
    (same : ∀ count ≤ limit, ∀ seen, 1 ≤ seen →
      heldFrom (back.take count) seen = heldFrom (back'.take count) seen) (front : List UInt8) :
    ∀ count ≤ limit, ∀ seen, 1 ≤ seen →
      heldFrom ((front ++ back).take count) seen = heldFrom ((front ++ back').take count) seen := by
  induction front with
  | nil => exact same
  | cons b rest ih =>
    intro count few seen some
    cases count with
    | zero => rfl
    | succ count =>
      rw [List.cons_append, List.cons_append, List.take_succ_cons, List.take_succ_cons, heldFrom,
        heldFrom, ih count (by omega) (seen + 1) (by omega)]

/-- Where no lead byte is found, none is found from farther away or in fewer bytes. -/
theorem heldFrom_take_eq_zero {back : List UInt8} {seen : Nat} (some : 1 ≤ seen)
    (nothing : heldFrom back seen = 0) (count : Nat) {later : Nat} (farther : seen ≤ later) :
    heldFrom (back.take count) later = 0 := by
  induction back generalizing seen later count with
  | nil => rw [List.take_nil, heldFrom]
  | cons b before ih =>
    cases count with
    | zero => rfl
    | succ count =>
      rw [heldFrom] at nothing
      rw [List.take_succ_cons, heldFrom]
      split
      · rename_i tail
        rw [if_pos tail] at nothing
        exact ih (by omega) nothing count (Nat.succ_le_succ farther)
      · rename_i other
        rw [if_neg other] at nothing
        split at nothing
        · omega
        · rw [if_neg (by omega)]

/-- The search finds nothing, or a lead byte with fewer tail bytes than it announces. -/
theorem heldFrom_cases (back : List UInt8) (seen : Nat) :
    heldFrom back seen = 0 ∨ ∃ tails lead before, back = tails ++ lead :: before ∧
      (∀ b ∈ tails, isTail b = true) ∧ seen + tails.length < announcedLength lead ∧
        heldFrom back seen = seen + tails.length := by
  induction back generalizing seen with
  | nil => exact .inl rfl
  | cons b before ih =>
    rw [heldFrom]
    split
    · rename_i tail
      rcases ih (seen + 1) with nothing | ⟨tails, lead, rest, rfl, others, short, found⟩
      · exact .inl nothing
      · refine .inr ⟨b :: tails, lead, rest, rfl, ?_, ?_, ?_⟩
        · intro c among
          rcases List.mem_cons.1 among with rfl | later
          · exact tail
          · exact others c later
        · rw [List.length_cons]
          omega
        · rw [found, List.length_cons]
          omega
    · split
      · rename_i short
        exact .inr ⟨[], b, before, rfl, by simp, short, rfl⟩
      · exact .inl rfl

theorem heldLength_cases (bytes : List UInt8) :
    heldLength bytes = 0 ∨ ∃ front lead tails, bytes = front ++ lead :: tails ∧
      Partial lead tails ∧ heldLength bytes = tails.length + 1 := by
  -- The search reads the last three bytes, last first.
  rcases heldFrom_cases (bytes.reverse.take 3) 1 with
    nothing | ⟨tails, lead, before, cut, others, short, found⟩
  · exact .inl nothing
  · refine .inr ⟨(before ++ bytes.reverse.drop 3).reverse, lead, tails.reverse, ?_, ⟨?_, ?_⟩, ?_⟩
    · have whole := List.take_append_drop 3 bytes.reverse
      rw [cut] at whole
      calc bytes = bytes.reverse.reverse := (List.reverse_reverse bytes).symm
        _ = (tails ++ lead :: before ++ bytes.reverse.drop 3).reverse := by rw [whole]
        _ = _ := by simp
    · intro b among
      exact others b (List.mem_reverse.1 among)
    · rw [List.length_reverse]
      omega
    · rw [List.length_reverse, heldLength, found, Nat.add_comm]

/-- Nothing in front of a byte that is no tail has a bearing on what is kept back. -/
theorem heldLength_append_lead (front : List UInt8) {lead : UInt8} (other : isTail lead = false)
    (back : List UInt8) : heldLength (front ++ lead :: back) = heldLength (lead :: back) := by
  have stops : ∀ count ≤ 3, ∀ seen, 1 ≤ seen →
      heldFrom ((lead :: front.reverse).take count) seen = heldFrom ([lead].take count) seen := by
    intro count _ seen _
    cases count with
    | zero => rfl
    | succ count => simp [heldFrom, other]
  have found := heldFrom_append_congr stops back.reverse 3 (Nat.le_refl 3) 1 (Nat.le_refl 1)
  simpa [heldLength] using found

theorem heldLength_append_of_eq_zero {front : List UInt8} (nothing : heldLength front = 0)
    (back : List UInt8) : heldLength (front ++ back) = heldLength back := by
  have stops : ∀ count ≤ 3, ∀ seen, 1 ≤ seen →
      heldFrom (front.reverse.take count) seen = heldFrom (([] : List UInt8).take count) seen := by
    intro count few seen some
    have fewer := heldFrom_take_eq_zero (Nat.le_refl 1) nothing count some
    rw [List.take_take, Nat.min_eq_left few] at fewer
    rw [fewer, List.take_nil, heldFrom]
  have found := heldFrom_append_congr stops back.reverse 3 (Nat.le_refl 3) 1 (Nat.le_refl 1)
  simpa [heldLength] using found

/-- An unfinished character is kept back. -/
theorem heldLength_of_partial {lead : UInt8} {tails : List UInt8} (begun : Partial lead tails)
    (front : List UInt8) : heldLength (front ++ lead :: tails) = tails.length + 1 := by
  have other := begun.lead_not_tail
  obtain ⟨others, short⟩ := begun
  have passes : ∀ (back : List UInt8) (seen : Nat), (∀ b ∈ back, isTail b = true) →
      seen + back.length < announcedLength lead →
        heldFrom (back ++ [lead]) seen = seen + back.length := by
    intro back
    induction back with
    | nil =>
      intro seen _ short
      simp [heldFrom, other] at short ⊢
      omega
    | cons b rest ih =>
      intro seen others short
      rw [List.length_cons] at short
      rw [List.cons_append, heldFrom, if_pos (others b (List.mem_cons_self ..)),
        ih (seen + 1) (fun c later => others c (List.mem_cons_of_mem _ later)) (by omega),
        List.length_cons]
      omega
  have four := announcedLength_cases lead
  rw [heldLength_append_lead front other, heldLength, List.reverse_cons,
    List.take_of_length_le (by simp; omega),
    passes tails.reverse 1 (fun b among => others b (List.mem_reverse.1 among))
      (by rw [List.length_reverse]; omega),
    List.length_reverse, Nat.add_comm]

/-- The bytes that are decoded when these have come. -/
def ready (bytes : List UInt8) : List UInt8 :=
  bytes.take (bytes.length - heldLength bytes)

/-- The bytes that wait for others. -/
def held (bytes : List UInt8) : List UInt8 :=
  bytes.drop (bytes.length - heldLength bytes)

theorem ready_append_held (bytes : List UInt8) : ready bytes ++ held bytes = bytes :=
  List.take_append_drop _ _

/-- Nothing waits, or an unfinished character does. -/
theorem held_cases (bytes : List UInt8) :
    (heldLength bytes = 0 ∧ held bytes = []) ∨
      ∃ lead tails, held bytes = lead :: tails ∧ Partial lead tails := by
  rcases heldLength_cases bytes with nothing | ⟨front, lead, tails, cut, begun, length⟩
  · refine .inl ⟨nothing, ?_⟩
    rw [held, nothing, Nat.sub_zero, List.drop_length]
  · refine .inr ⟨lead, tails, ?_, begun⟩
    rw [held, length, cut, List.drop_left' (by simp)]

theorem heldLength_le (bytes : List UInt8) : heldLength bytes ≤ bytes.length := by
  rcases heldLength_cases bytes with nothing | ⟨front, lead, tails, cut, _, length⟩
  · omega
  · rw [length, cut, List.length_append, List.length_cons]
    omega

/-- Of bytes that have come, only those that wait have a bearing on what is kept back. -/
theorem heldLength_append (front back : List UInt8) :
    heldLength (front ++ back) = heldLength (held front ++ back) := by
  rcases held_cases front with ⟨nothing, empty⟩ | ⟨lead, tails, waits, begun⟩
  · rw [empty, heldLength_append_of_eq_zero nothing, List.nil_append]
  · have cut := ready_append_held front
    rw [waits] at cut
    rw [waits, ← cut, List.append_assoc, List.cons_append,
      heldLength_append_lead _ begun.lead_not_tail]

theorem append_eq_ready_append (front back : List UInt8) :
    front ++ back = ready front ++ (held front ++ back) := by
  rw [← List.append_assoc, ready_append_held]

theorem ready_append (front back : List UInt8) :
    ready (front ++ back) = ready front ++ ready (held front ++ back) := by
  have few := heldLength_le (held front ++ back)
  have whole := append_eq_ready_append front back
  have cut : (front ++ back).length - heldLength (front ++ back) =
      (ready front).length + ((held front ++ back).length - heldLength (held front ++ back)) := by
    rw [heldLength_append, whole, List.length_append, Nat.add_sub_assoc few]
  show (front ++ back).take _ = ready front ++ (held front ++ back).take _
  rw [cut, whole, List.take_length_add_append]

theorem held_append (front back : List UInt8) :
    held (front ++ back) = held (held front ++ back) := by
  refine List.append_cancel_left (?_ : ready (front ++ back) ++ _ = ready (front ++ back) ++ _)
  calc ready (front ++ back) ++ held (front ++ back)
    _ = ready front ++ (held front ++ back) := by
      rw [ready_append_held, append_eq_ready_append front back]
    _ = ready front ++ (ready (held front ++ back) ++ held (held front ++ back)) := by
      rw [ready_append_held (held front ++ back)]
    _ = ready (front ++ back) ++ held (held front ++ back) := by
      rw [ready_append front back, List.append_assoc]

/-- What waits can be decoded apart from what came before it, whatever comes next. -/
theorem apart_ready (bytes more : List UInt8) : Apart (ready bytes) (held bytes ++ more) := by
  rcases held_cases bytes with ⟨nothing, empty⟩ | ⟨lead, tails, waits, begun⟩
  · have whole := ready_append_held bytes
    rw [empty, List.append_nil] at whole
    refine .inl ?_
    rw [whole]
    -- Inside a character, its bytes so far would have been kept back.
    cases inside : (bytes.foldl Decoder.push {}).inside with
    | none => rfl
    | some u =>
      obtain ⟨_, front, lead, tails, rfl, begun, _⟩ := endsInside_of_inside inside
      rw [heldLength_of_partial begun] at nothing
      cases nothing
  · refine .inr ?_
    intro b first
    rw [waits] at first
    obtain rfl := Option.some.inj first
    exact begun.lead_not_tail

/-- What is decoded is decoded as it is together with what came before. -/
theorem decodeChars_ready_append (front back : List UInt8) : decodeChars (ready (front ++ back)) =
    decodeChars (ready front) ++ decodeChars (ready (held front ++ back)) := by
  rw [ready_append]
  exact decodeChars_append ((apart_ready front back).take _)

theorem decodeChars_ready_held (bytes : List UInt8) :
    decodeChars (ready bytes) ++ decodeChars (held bytes) = decodeChars bytes := by
  have apart := apart_ready bytes []
  rw [List.append_nil] at apart
  rw [← decodeChars_append apart, ready_append_held]

/-- A character that is owed more bytes than come is ill-formed. -/
theorem finish_of_length_lt {u : Unfinished} {bytes : List UInt8} (short : bytes.length < u.owed) :
    ∃ rest, (bytes.foldl Decoder.push ⟨some u, []⟩).finish = replacement :: rest := by
  induction bytes generalizing u with
  | nil => exact ⟨[], rfl⟩
  | cons b later ih =>
    rw [List.length_cons] at short
    rw [List.foldl_cons, Decoder.push_inside]
    split
    · rw [if_neg (by omega)]
      exact ih (by dsimp only; omega)
    · rw [← List.foldl_cons, Decoder.finish_foldl]
      exact ⟨_, rfl⟩

theorem decodeChars_of_partial {lead : UInt8} {tails : List UInt8} (begun : Partial lead tails) :
    ∃ rest, decodeChars (lead :: tails) = replacement :: rest := by
  have short := begun.short
  have least := announcedLength_cases lead
  cases leads : lead? lead with
  | some u =>
    obtain ⟨_, announced⟩ := lead?_eq_some leads
    rw [decodeChars, List.foldl_cons, Decoder.push_lead leads (by omega)]
    exact finish_of_length_lt (by omega)
  | none =>
    -- Some bytes have the form of a lead byte, and no character begins with them.
    have notAscii : ¬ lead < 0x80 := by
      rw [UInt8.lt_iff_toNat_lt]
      show ¬ lead.toNat < 128
      omega
    have taken : Decoder.push {} lead = ⟨none, [replacement]⟩ := by
      show Decoder.start {} lead = _
      rw [Decoder.start, if_neg notAscii, leads]
      rfl
    rw [decodeChars, List.foldl_cons, taken, Decoder.finish_foldl]
    exact ⟨_, rfl⟩

/-- Bytes that wait in vain are no byte order mark. -/
theorem decodeChars_held_cases (bytes : List UInt8) :
    held bytes = [] ∨ ∃ rest, decodeChars (held bytes) = replacement :: rest := by
  rcases held_cases bytes with ⟨_, empty⟩ | ⟨lead, tails, waits, begun⟩
  · exact .inl empty
  · rw [waits]
    exact .inr (decodeChars_of_partial begun)

end TapeMachine.Text.Utf8
