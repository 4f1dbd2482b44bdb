import Boot386.Proofs.Checked.Reader

/-!
# One tape, many requests

A tape answers requests of five kinds (`Request`) one after the other, in any order and also behind
requests that have failed. However it has been read, its count has not carried it behind the last
byte (`Tape.Sound`), so that what is reported as read is never cut short.

What a request comes to depends on the bytes from the place on and on nothing else
(`Tape.answered`). So it makes no difference whether a tape has been read up to its place or starts
there (`Tape.answer_eq_of_place`), nor whether bytes are counted or kept, as a `Cursor` does
(`Tape.Agrees`). Instruction after instruction, the bytes are used up from the front
(`Tape.Sweeps.tiling`) until there is an error (`Tape.exists_sweeps`).
-/

namespace Boot386

/-! ### Missing bytes -/

namespace Decoder

variable {α β : Type} {d : Decoder α}

/-- Where bytes are missing, none is consumed. -/
def KeepsShort (d : Decoder α) : Prop :=
  ∀ bytes rest, d bytes = .error .truncated rest → rest = bytes

theorem keepsShort_byte : byte.KeepsShort := by
  intro bytes rest h
  cases bytes <;> cases h
  rfl

theorem keepsShort_word : word.KeepsShort := by
  intro bytes rest h
  unfold word at h
  split at h <;> cases h
  rfl

theorem keepsShort_modRM : modRM.KeepsShort := by
  intro bytes rest h
  cases bytes with
  | nil =>
    cases h
    rfl
  | cons b behind =>
    simp only [modRM] at h
    split at h
    · cases h
    · split at h <;> cases h
      rfl

theorem KeepsShort.map (hd : d.KeepsShort) (f : α → β) :
    (d >>= fun a => pure (f a)).KeepsShort := by
  intro bytes rest h
  rw [bind_apply] at h
  cases hr : d bytes with
  | ok a left =>
    rw [hr] at h
    cases h
  | error e left =>
    rw [hr] at h
    cases h
    exact hd bytes _ hr

end Decoder

namespace Checked

/-! ### Requests -/

/-- What is asked of a tape. -/
inductive Request where
  | byte
  | signedByte
  | word
  | operand
  | instruction
  deriving DecidableEq, Repr, Inhabited

/-- What is read from it. -/
inductive Item where
  | byte (b : UInt8)
  | signedByte (b : Int8)
  | word (w : UInt32)
  | operand (f : Fields)
  | instruction (i : Instruction)
  deriving DecidableEq, Repr, Inhabited

namespace Request

/-- How a tape is read. -/
def reader : Request → Reader Item
  | byte => return .byte (← Reader.byte)
  | signedByte => return .signedByte (← Reader.byte).toInt8
  | word => return .word (← Reader.word)
  | operand => return .operand (← Reader.modRM)
  | instruction => return .instruction (← Reader.instruction)

/-- How the bytes at a cursor are decoded. -/
def decoder : Request → Decoder Item
  | byte => return .byte (← Decoder.byte)
  | signedByte => return .signedByte (← Decoder.byte).toInt8
  | word => return .word (← Decoder.word)
  | operand => return .operand (.ofModRM (← Decoder.modRM))
  | instruction => return .instruction (← Decoder.instruction)

/-- Reading does what decoding does. -/
theorem simulates (q : Request) : Simulates Decoder.maxLength id q.reader q.decoder := by
  cases q with
  | byte => exact (simulates_byte.map _).mono (by decide)
  | signedByte => exact (simulates_byte.map _).mono (by decide)
  | word => exact (simulates_word.map _).mono (by decide)
  | operand =>
    have hfields : Simulates (5 + 0) id (Reader.modRM >>= fun f => pure (Item.operand f))
        (Decoder.modRM >>= fun m => pure (.operand (.ofModRM m))) :=
      simulates_modRM.bind fun m => simulates_pure id (Item.operand (.ofModRM m))
    exact hfields.mono (by decide)
  | instruction => exact simulates_instruction.map _

/-- Only an instruction can break off in the middle. -/
theorem keepsShort {q : Request} (hq : q ≠ .instruction) : q.decoder.KeepsShort := by
  cases q with
  | byte => exact Decoder.keepsShort_byte.map _
  | signedByte => exact Decoder.keepsShort_byte.map _
  | word => exact Decoder.keepsShort_word.map _
  | operand => exact Decoder.keepsShort_modRM.map _
  | instruction => contradiction

end Request

end Checked

/-- The cursor behind some requests. -/
def Cursor.after (c : Cursor) (requests : List Checked.Request) : Cursor :=
  requests.foldl (fun c q => (c.next q.decoder).2) c

namespace Checked

/-! ### Tapes -/

namespace Tape

/-- A tape that starts at an address and has not been read. -/
def place (data : List UInt8) (start : UInt32) : Tape :=
  ⟨data, start.toNat, 0⟩

/-- The count of bytes, in 32 bits. -/
def count (t : Tape) : UInt32 :=
  UInt32.ofNat t.moved

/-- The bytes that have been read, cut off behind the last byte. -/
def consumed (t : Tape) : List UInt8 :=
  (t.data.take (min (t.start + t.moved) t.data.length)).drop t.start

/-- What comes of a request, and the tape as it is left, also by an error. -/
def answer (t : Tape) (q : Request) : Except (Stop DecodeError) Item × Tape :=
  match q.reader t with
  | .ok a t => (.ok a, t)
  | .error e t => (.error e, t)

/-- The tape behind some requests. -/
def after (t : Tape) (requests : List Request) : Tape :=
  requests.foldl (fun t q => (t.answer q).2) t

/-! ### Sound tapes -/

/-- The tape stands no further than behind the last byte, or where it started. -/
structure Sound (t : Tape) : Prop where
  start_lt : t.start < UInt32.size
  length_lt : t.data.length < UInt32.size
  within : t.start + t.moved ≤ max t.start t.data.length

variable {t : Tape} {taken left : List UInt8}

theorem sound_place {data : List UInt8} (h : data.length < UInt32.size) (start : UInt32) :
    (place data start).Sound where
  start_lt := start.toNat_lt
  length_lt := h
  within := Nat.le_max_left ..

theorem length_rest (t : Tape) : t.rest.length = t.data.length - (t.start + t.moved) :=
  List.length_drop

theorem Sound.advance (h : t.Sound) (hrest : t.rest = taken ++ left) :
    (t.advance taken.length).Sound where
  start_lt := h.start_lt
  length_lt := h.length_lt
  within := by
    have hwithin := h.within
    have hlen := t.length_rest
    rw [hrest, List.length_append] at hlen
    simp only [Tape.advance]
    omega

theorem Sound.place_lt (h : t.Sound) : t.start + t.moved < UInt32.size :=
  h.within.trans_lt (max_lt h.start_lt h.length_lt)

theorem Sound.room (h : t.Sound) : t.start + t.moved + Decoder.maxLength < UInt64.size := by
  have hplace := h.place_lt
  unfold UInt32.size at hplace
  unfold Decoder.maxLength UInt64.size
  omega

theorem Sound.toNat_count (h : t.Sound) : t.count.toNat = t.moved := by
  have hplace := h.place_lt
  rw [count, UInt32.toNat_ofNat_of_lt' (by omega)]

/-- The bytes that have been read are the first ones from the starting place on. -/
theorem consumed_eq (t : Tape) : t.consumed = (t.data.drop t.start).take t.moved := by
  have hcut : t.data.take (min (t.start + t.moved) t.data.length)
      = t.data.take (t.start + t.moved) := List.take_eq_take_min.symm
  rw [consumed, hcut, List.drop_take, Nat.add_sub_cancel_left]

/-- Nothing is cut off. -/
theorem Sound.length_consumed (h : t.Sound) : t.consumed.length = t.moved := by
  have hwithin := h.within
  rw [consumed_eq, List.length_take, List.length_drop]
  omega

theorem consumed_advance (hrest : t.rest = taken ++ left) :
    (t.advance taken.length).consumed = t.consumed ++ taken := by
  have hdrop : (t.data.drop t.start).drop t.moved = taken ++ left := by
    rw [List.drop_drop, ← hrest, rest]
  rw [consumed_eq, consumed_eq]
  simp only [advance]
  rw [List.take_add, hdrop, List.take_left]

/-! ### One request -/

/-- A request is answered by what comes of decoding the bytes from the place on, and the tape goes
past those that are taken. -/
structure Answered (t : Tape) (q : Request) (taken left : List UInt8)
    (result : Except DecodeError Item) : Prop where
  rest : t.rest = taken ++ left
  decodes : q.decoder t.rest = Decoder.outcome result left
  answer : t.answer q = (result.mapError .error, t.advance taken.length)

/-- **Every request is answered.** -/
theorem answered (h : t.Sound) (q : Request) :
    ∃ taken left result, t.Answered q taken left result := by
  obtain ⟨taken, left, result, hrest, -, hdec, hread⟩ := q.simulates t h.room
  refine ⟨taken, left, result, hrest, hdec, ?_⟩
  rw [answer, hread]
  cases result <;> rfl

namespace Answered

variable {t' : Tape} {q : Request} {taken' left' : List UInt8}
variable {result result' : Except DecodeError Item}

theorem sound (ha : t.Answered q taken left result) (h : t.Sound) : (t.answer q).2.Sound := by
  rw [ha.answer]
  exact h.advance ha.rest

theorem consumed (ha : t.Answered q taken left result) :
    (t.answer q).2.consumed = t.consumed ++ taken := by
  rw [ha.answer]
  exact consumed_advance ha.rest

/-- What is left is the rest of the tape behind the request. -/
theorem rest_answer (ha : t.Answered q taken left result) : (t.answer q).2.rest = left := by
  rw [ha.answer]
  exact rest_advance ha.rest

/-- The bytes from the place on determine all of an answer. -/
theorem unique (ha : t.Answered q taken left result) (ha' : t'.Answered q taken' left' result')
    (hrest : t'.rest = t.rest) : taken' = taken ∧ result' = result := by
  have hdec := ha'.decodes
  rw [hrest, ha.decodes] at hdec
  obtain ⟨rfl, rfl⟩ : result' = result ∧ left' = left := by
    cases result <;> cases result' <;> cases hdec <;> exact ⟨rfl, rfl⟩
  have happend := ha'.rest
  rw [hrest, ha.rest] at happend
  exact ⟨(List.append_cancel_right happend).symm, rfl⟩

end Answered

/-- **What is missing costs nothing.** Where bytes are missing for anything but an instruction, the
tape stays where it is. -/
theorem answer_of_truncated (h : t.Sound) {q : Request} (hq : q ≠ .instruction)
    (hshort : (t.answer q).1 = .error (.error .truncated)) : (t.answer q).2 = t := by
  obtain ⟨taken, left, result, ha⟩ := t.answered h q
  have hresult : result = .error .truncated := by
    rw [ha.answer] at hshort
    cases result with
    | ok a => cases hshort
    | error e =>
      cases hshort
      rfl
  subst hresult
  -- nothing has been consumed, so that nothing has been taken
  have hkept : left = t.rest := Request.keepsShort hq _ _ ha.decodes
  have htaken : taken = [] := List.append_left_eq_self.1 (ha.rest.symm.trans hkept.symm)
  rw [ha.answer, htaken]
  rfl

/-! ### Many requests -/

/-- Requests only move a tape forward. -/
theorem exists_after_eq_advance (h : t.Sound) (requests : List Request) :
    (t.after requests).Sound ∧ ∃ n, t.after requests = t.advance n := by
  induction requests generalizing t with
  | nil => exact ⟨h, 0, rfl⟩
  | cons q requests ih =>
    obtain ⟨taken, left, result, ha⟩ := t.answered h q
    obtain ⟨hsound, n, hn⟩ := ih (ha.sound h)
    refine ⟨hsound, taken.length + n, ?_⟩
    rw [ha.answer] at hn
    show (t.answer q).2.after requests = _
    rw [ha.answer, hn, advance_advance]

/-- **It makes no difference how a place has been reached.** A tape that starts there comes to the
same answer and reads the same bytes. -/
theorem answer_eq_of_place (h : t.Sound) {start : UInt32} (hstart : t.start = start.toNat)
    (q : Request) :
    (t.answer q).1 = ((place t.data (start + t.count)).answer q).1 ∧
      (t.answer q).2.consumed
        = t.consumed ++ ((place t.data (start + t.count)).answer q).2.consumed := by
  -- the place does not wrap
  have hsum : (start + t.count).toNat = t.start + t.moved := by
    have hplace := h.place_lt
    rw [UInt32.toNat_add, h.toNat_count, ← hstart]
    exact Nat.mod_eq_of_lt hplace
  have hrest : (place t.data (start + t.count)).rest = t.rest := by
    rw [rest, rest, place, hsum, Nat.add_zero]
  obtain ⟨taken, left, result, ha⟩ := t.answered h q
  obtain ⟨taken', left', result', ha'⟩ :=
    (place t.data (start + t.count)).answered (sound_place h.length_lt _) q
  -- both answers are of the same bytes
  obtain ⟨rfl, rfl⟩ := ha.unique ha' hrest
  have hnone : (place t.data (start + t.count)).consumed = [] := by
    rw [consumed_eq]
    exact List.take_zero
  rw [ha.consumed, ha'.consumed, hnone, ha.answer, ha'.answer, List.nil_append]
  exact ⟨rfl, rfl⟩

/-- The cursor stands where the tape does, and has kept the bytes that the tape has counted. -/
structure Agrees (t : Tape) (c : Cursor) : Prop where
  rest : c.rest = t.rest
  consumed : c.consumed = t.consumed

theorem agrees_place (data : List UInt8) (start : UInt32) :
    (place data start).Agrees (.place data start.toNat) where
  rest := rfl
  consumed := by
    rw [consumed_eq]
    rfl

/-- **One request.** The cursor comes to the same answer and the same place. -/
theorem Agrees.answer (h : t.Sound) {c : Cursor} (hc : t.Agrees c) (q : Request) :
    (t.answer q).1 = (c.next q.decoder).1.mapError .error ∧
      (t.answer q).2.Agrees (c.next q.decoder).2 := by
  obtain ⟨taken, left, result, ha⟩ := t.answered h q
  have hdec := ha.decodes
  rw [ha.rest] at hdec
  have hnext : c.next q.decoder = (result, ⟨c.consumed ++ taken, left⟩) := by
    rw [Cursor.next, hc.rest, ha.rest, Decoder.decode_append hdec]
  rw [hnext]
  refine ⟨by rw [ha.answer], ha.rest_answer.symm, ?_⟩
  rw [ha.consumed, hc.consumed]

/-- **Many requests.** -/
theorem Agrees.after (h : t.Sound) {c : Cursor} (hc : t.Agrees c) (requests : List Request) :
    (t.after requests).Agrees (c.after requests) := by
  induction requests generalizing t c with
  | nil => exact hc
  | cons q requests ih =>
    obtain ⟨taken, left, result, ha⟩ := t.answered h q
    exact ih (ha.sound h) (hc.answer h q).2

/-! ### Instruction after instruction -/

/-- From a tape on, the instructions are decoded one after the other, each from the bytes beside it.
Then there is the error, for which the last bytes have been looked at. -/
inductive Sweeps : Tape → List (Instruction × List UInt8) → DecodeError → List UInt8 → Prop where
  | stop {t : Tape} {e : DecodeError} {last : List UInt8}
    (herror : (t.answer .instruction).1 = .error (.error e))
    (hlast : (t.answer .instruction).2.consumed = t.consumed ++ last) : Sweeps t [] e last
  | next {t : Tape} {i : Instruction} {bytes : List UInt8}
    {tiles : List (Instruction × List UInt8)} {e : DecodeError} {last : List UInt8}
    (hok : (t.answer .instruction).1 = .ok (.instruction i))
    (hbytes : (t.answer .instruction).2.consumed = t.consumed ++ bytes)
    (hrest : Sweeps (t.answer .instruction).2 tiles e last) : Sweeps t ((i, bytes) :: tiles) e last

/-- An answer that is no error is an instruction, and it has taken a byte. -/
theorem Answered.instruction {item : Item} (ha : t.Answered .instruction taken left (.ok item)) :
    taken ≠ [] ∧ ∃ i, item = .instruction i := by
  have hdec : (Decoder.instruction >>= fun i => pure (Item.instruction i)) t.rest = .ok item left :=
    ha.decodes
  rw [Decoder.bind_apply] at hdec
  cases hi : Decoder.instruction t.rest with
  | error e rest =>
    rw [hi] at hdec
    cases hdec
  | ok i rest =>
    rw [hi] at hdec
    cases hdec
    refine ⟨?_, i, rfl⟩
    -- an instruction that has taken nothing would have left everything
    rintro rfl
    have hkept : t.rest = left := ha.rest
    rw [hkept] at hi
    cases left with
    | nil => cases hi
    | cons b bytes =>
      have hprogress := Decoder.length_left_instruction_lt b bytes
      rw [Decoder.left, hi] at hprogress
      exact absurd hprogress (Nat.lt_irrefl _)

/-- **There is a first error.** -/
theorem exists_sweeps (h : t.Sound) : ∃ tiles e last, t.Sweeps tiles e last := by
  induction hn : t.rest.length using Nat.strong_induction_on generalizing t with
  | _ n ih =>
    obtain ⟨taken, left, result, ha⟩ := t.answered h .instruction
    cases result with
    | error e => exact ⟨[], e, taken, .stop (by rw [ha.answer]; rfl) ha.consumed⟩
    | ok item =>
      obtain ⟨htaken, i, rfl⟩ := ha.instruction
      -- fewer bytes are left
      have hlen : left.length < n := by
        rw [← hn, ha.rest, List.length_append]
        exact Nat.lt_add_of_pos_left (List.length_pos_iff.2 htaken)
      obtain ⟨tiles, e, last, hs⟩ := ih _ hlen (ha.sound h) (by rw [ha.rest_answer])
      exact ⟨(i, taken) :: tiles, e, last, .next (by rw [ha.answer]; rfl) ha.consumed hs⟩

/-- **The bytes are used up from the front.** -/
theorem Sweeps.tiling {tiles : List (Instruction × List UInt8)} {e : DecodeError}
    {last : List UInt8} (hs : t.Sweeps tiles e last) (h : t.Sound) :
    (tiles.map Prod.snd).flatten ++ last <+: t.rest ∧ (∀ tile ∈ tiles, tile.2 ≠ []) ∧
      tiles.length ≤ t.rest.length := by
  induction hs with
  | @stop t e last herror hlast =>
    obtain ⟨taken, left, result, ha⟩ := t.answered h .instruction
    -- the relation names what has been added, and it is what has been taken
    obtain rfl : taken = last := List.append_cancel_left (ha.consumed.symm.trans hlast)
    exact ⟨⟨left, ha.rest.symm⟩, by simp, Nat.zero_le _⟩
  | @next t i bytes tiles e last hok hbytes hrest ih =>
    obtain ⟨taken, left, result, ha⟩ := t.answered h .instruction
    obtain rfl : taken = bytes := List.append_cancel_left (ha.consumed.symm.trans hbytes)
    obtain ⟨hfront, hne, hlen⟩ := ih (ha.sound h)
    rw [ha.rest_answer] at hfront hlen
    -- the answer is an instruction, so that it has taken a byte
    cases result with
    | error e' =>
      rw [ha.answer] at hok
      cases hok
    | ok item =>
      have htaken := ha.instruction.1
      refine ⟨?_, List.forall_mem_cons.2 ⟨htaken, hne⟩, ?_⟩
      · -- the bytes of the first instruction stand in front of the others
        rw [ha.rest, List.map_cons, List.flatten_cons, List.append_assoc]
        exact (List.prefix_append_right_inj taken).2 hfront
      · -- and there is at least one of them
        rw [ha.rest, List.length_append, List.length_cons]
        have hpos := List.length_pos_iff.2 htaken
        omega

/-! ### All together -/

/-- **One tape, many requests.** However a tape of fewer than `2 ^ 32` bytes has been read, what has
been read is as many bytes from the starting place on as have been counted, the place is not behind
the last byte unless the tape started there, and further requests never lower the count. Each
request comes to the same as on a tape that starts at this place, adds the same bytes and never
crashes; and a cursor that keeps bytes and counts none comes to the same. Where bytes are missing
for anything but an instruction, the tape stays as it is. Decoding instruction after instruction
meets an error, and up to there the instructions lie side by side from the starting place on, so
that there are no more of them than bytes. -/
theorem reading_of_requests {data : List UInt8} (h : data.length < UInt32.size) (start : UInt32)
    (requests : List Request) :
    let t := (place data start).after requests
    let c := (Cursor.place data start.toNat).after requests
    (t.consumed = (data.drop start.toNat).take t.count.toNat ∧
      t.consumed.length = t.count.toNat ∧
      start.toNat + t.count.toNat ≤ max start.toNat data.length ∧
      ∀ more, t.count ≤ (t.after more).count) ∧
    (∀ q,
      let fresh := place data (start + t.count)
      (t.answer q).1 = (fresh.answer q).1 ∧
      (t.answer q).2.consumed = t.consumed ++ (fresh.answer q).2.consumed) ∧
    (∀ q, q ≠ .instruction → (t.answer q).1 = .error (.error .truncated) → (t.answer q).2 = t) ∧
    (c.consumed = t.consumed ∧ c.moved = t.count.toNat ∧
      ∀ q, (t.answer q).1 = (c.next q.decoder).1.mapError .error) ∧
    (∃ tiles e last, (place data start).Sweeps tiles e last) ∧
    ∀ tiles e last, (place data start).Sweeps tiles e last →
      (tiles.map Prod.snd).flatten ++ last <+: data.drop start.toNat ∧
      (∀ tile ∈ tiles, tile.2 ≠ []) ∧ tiles.length ≤ data.length - start.toNat := by
  intro t c
  have hplace := sound_place h start
  obtain ⟨hsound, n, hadvance⟩ := exists_after_eq_advance hplace requests
  have hagrees := (agrees_place data start).after hplace requests
  have hdata : t.data = data := congrArg Tape.data hadvance
  have hstart : t.start = start.toNat := congrArg Tape.start hadvance
  -- most clauses are about the tape behind the requests, the last two about the one before them
  refine ⟨⟨?_, ?_, ?_, fun more => ?_⟩, fun q => ?_, fun q => answer_of_truncated hsound,
    ⟨hagrees.consumed, ?_, fun q => (hagrees.answer hsound q).1⟩, exists_sweeps hplace,
    fun tiles e last hs => ?_⟩
  · -- what has been read, its length, and the place
    rw [consumed_eq, hsound.toNat_count, hdata, hstart]
  · rw [hsound.length_consumed, hsound.toNat_count]
  · have hwithin : t.start + t.moved ≤ max t.start t.data.length := hsound.within
    rw [hstart, hdata] at hwithin
    rwa [hsound.toNat_count]
  · -- further requests only move the tape forward
    obtain ⟨hmore, k, hk⟩ := exists_after_eq_advance hsound more
    rw [UInt32.le_iff_toNat_le, hsound.toNat_count, hmore.toNat_count, hk]
    exact Nat.le_add_right ..
  · -- a tape that starts at this place has the same bytes before it
    have hfresh := answer_eq_of_place hsound hstart q
    rwa [hdata] at hfresh
  · -- the cursor has kept the bytes that the tape has counted
    rw [Cursor.moved, hagrees.consumed, hsound.length_consumed, hsound.toNat_count]
  · -- there are no more bytes than stand behind the starting place
    have htiling := hs.tiling hplace
    rwa [length_rest] at htiling

/-- An instruction, a byte, a signed byte, an operand whose form is not implemented, a word for which
bytes are missing, and an instruction that breaks off behind its leading byte, all on one tape.
Instruction after instruction the same bytes are two instructions and an unknown one. -/
theorem reading_of_requests_broken :
    let data : List UInt8 := [0xee, 0x40, 0x6a, 0xff, 0x04, 0x01, 0x8b]
    let t := (place data 1).after [.instruction, .byte, .signedByte, .operand, .word, .instruction]
    let tiles : List (Instruction × List UInt8) :=
      [(⟨.inc, .dword, .reg .eax, .absent⟩, [0x40]),
        (⟨.push, .dword, .imm 0xffffffff, .absent⟩, [0x6a, 0xff])]
    data.length < UInt32.size ∧ t.count = 5 ∧ t.consumed = [0x40, 0x6a, 0xff, 0x04, 0x01] ∧
    (t.answer .byte).1 = ((place data 6).answer .byte).1 ∧
    (t.answer .operand).1 = .error (.error .truncated) ∧ (t.answer .operand).2 = t ∧
    (place data 1).Sweeps tiles (.unknownOpcode 0x04) [0x04] ∧
    [0x40, 0x6a, 0xff, 0x04] <+: data.drop 1 ∧ tiles.length ≤ 6 := by
  intro data t tiles
  have hlen : data.length < UInt32.size := by decide
  -- what these requests come to, and another one behind them
  have hcount : t.count = 5 := by decide +kernel
  have hshort : (t.answer .operand).1 = .error (.error .truncated) := by decide +kernel
  -- the instructions from the start on, one after the other
  have hsweeps : (place data 1).Sweeps tiles (.unknownOpcode 0x04) [0x04] :=
    .next (by decide +kernel) (by decide +kernel)
      (.next (by decide +kernel) (by decide +kernel)
        (.stop (by decide +kernel) (by decide +kernel)))
  -- the theorem gives the bytes, the fresh tape, the place that is kept and the bound
  obtain ⟨⟨hconsumed, -⟩, hfresh, hkept, -, -, htiling⟩ := reading_of_requests hlen 1
    [.instruction, .byte, .signedByte, .operand, .word, .instruction]
  have hbyte := (hfresh .byte).1
  rw [hcount] at hbyte
  obtain ⟨hfront, -, hcard⟩ := htiling _ _ _ hsweeps
  refine ⟨hlen, hcount, hconsumed.trans ?_, hbyte, hshort, hkept .operand (by decide) hshort,
    hsweeps, hfront, hcard⟩
  rw [hcount]
  rfl

end Tape

end Checked

end Boot386
