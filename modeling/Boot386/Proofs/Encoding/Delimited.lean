import Mathlib.Order.Nat
import Boot386.Encoding.Cursor

/-!
# Self-delimiting decoders

A decoder is *delimited* by a limit when it decides by the bytes it takes and by no others:

* `Settles d taken r`: after exactly the bytes `taken` the decoder has decided on `r`, whatever
  follows them, and no shorter part of them is enough;
* `RunsShort d bytes`: the bytes end before the decoder has decided;
* `Delimited limit d`: on all bytes one of the two is the case, and `limit` bytes are always
  enough.

Delimited decoders are closed under sequencing (`Delimited.bind`), where the limits add up. The
elementary decoders are delimited, hence so is every decoder made of them, and
`delimited_instruction` finds ten bytes for an instruction.

The form of that fact that does not mention decoders is about `instructionAt`, the outcome of
decoding at an index of some bytes.
-/

namespace Boot386.Decoder

variable {α β : Type}

/-! ### Deciding and running short -/

/-- What a decoder returns when it has decided on a result and `rest` is left. -/
def outcome (r : Except DecodeError α) (rest : List UInt8) :
    EStateM.Result DecodeError (List UInt8) α :=
  match r with
  | .ok a => .ok a rest
  | .error e => .error e rest

/-- The bytes end before the decoder has decided. -/
def RunsShort (d : Decoder α) (bytes : List UInt8) : Prop :=
  ∃ rest, d bytes = .error .truncated rest

/-- The decoder decides on `r` by the bytes `taken`: it needs all of them and looks at nothing
behind them. -/
structure Settles (d : Decoder α) (taken : List UInt8) (r : Except DecodeError α) : Prop where
  final : r ≠ .error .truncated
  decides : ∀ tail, d (taken ++ tail) = outcome r tail
  short : ∀ k < taken.length, d.RunsShort (taken.take k)

/-- The decoder decides by the bytes that it takes, and `limit` bytes are always enough. -/
structure Delimited (limit : Nat) (d : Decoder α) : Prop where
  settles : ∀ bytes, d.RunsShort bytes ∨
    ∃ taken rest r, bytes = taken ++ rest ∧ d.Settles taken r
  enough : ∀ bytes, limit ≤ bytes.length → ¬ d.RunsShort bytes

theorem not_runsShort_of_eq {d : Decoder α} {bytes rest : List UInt8}
    {r : Except DecodeError α} (hr : r ≠ .error .truncated) (h : d bytes = outcome r rest) :
    ¬ d.RunsShort bytes := by
  rintro ⟨left, hl⟩
  rw [h] at hl
  cases r with
  | ok a => simp [outcome] at hl
  | error e =>
    simp only [outcome, EStateM.Result.error.injEq] at hl
    exact hr (by rw [hl.1])

/-- A decoder that settles has decided, so that the bytes do not run short. -/
theorem Settles.not_runsShort {d : Decoder α} {taken : List UInt8} {r : Except DecodeError α}
    (h : d.Settles taken r) (tail : List UInt8) : ¬ d.RunsShort (taken ++ tail) :=
  not_runsShort_of_eq h.final (h.decides tail)

/-- No more bytes are taken than are always enough. -/
theorem Settles.length_le {d : Decoder α} {limit : Nat} (hd : d.Delimited limit)
    {taken : List UInt8} {r : Except DecodeError α} (h : d.Settles taken r) :
    taken.length ≤ limit := by
  by_contra hlt
  -- otherwise the first `limit` bytes run short, although they are enough
  have hlen : limit ≤ (taken.take limit).length := by
    rw [List.length_take]
    omega
  exact hd.enough _ hlen (h.short limit (by omega))

theorem Delimited.mono {d : Decoder α} {j k : Nat} (hd : d.Delimited j) (hjk : j ≤ k) :
    d.Delimited k :=
  ⟨hd.settles, fun bytes h => hd.enough bytes (hjk.trans h)⟩

/-! ### Elementary decoders -/

/-- A decoder that decides without looking at any bytes is delimited by zero. -/
theorem delimited_of_outcome {d : Decoder α} {r : Except DecodeError α}
    (hr : r ≠ .error .truncated) (h : ∀ bytes, d bytes = outcome r bytes) : d.Delimited 0 where
  settles bytes := .inr ⟨[], bytes, r, rfl, hr, h, fun k hk => absurd hk (Nat.not_lt_zero k)⟩
  enough bytes _ := not_runsShort_of_eq hr (h bytes)

theorem delimited_pure (a : α) : (pure a : Decoder α).Delimited 0 :=
  delimited_of_outcome (r := .ok a) (by simp) fun _ => rfl

theorem delimited_ofExcept {x : Except DecodeError α} (hx : x ≠ .error .truncated) :
    (ofExcept x).Delimited 0 :=
  delimited_of_outcome hx fun _ => by cases x <;> rfl

theorem runsShort_byte_nil : byte.RunsShort [] := ⟨[], rfl⟩

theorem delimited_byte : byte.Delimited 1 where
  settles bytes := by
    cases bytes with
    | nil => exact .inl runsShort_byte_nil
    | cons b rest =>
      refine .inr ⟨[b], rest, .ok b, rfl, by simp, fun tail => rfl, ?_⟩
      intro k hk
      obtain rfl : k = 0 := Nat.lt_one_iff.1 hk
      exact runsShort_byte_nil
  enough bytes h := by
    cases bytes with
    | nil => simp at h
    | cons b rest =>
      have hok : byte (b :: rest) = outcome (.ok b) rest := rfl
      exact not_runsShort_of_eq (by simp) hok

/-- Fewer than four bytes are not enough for a word. -/
theorem runsShort_word {bytes : List UInt8} (h : bytes.length < 4) : word.RunsShort bytes := by
  match bytes, h with
  | [], _ => exact ⟨_, rfl⟩
  | [_], _ => exact ⟨_, rfl⟩
  | [_, _], _ => exact ⟨_, rfl⟩
  | [_, _, _], _ => exact ⟨_, rfl⟩

theorem delimited_word : word.Delimited 4 where
  settles bytes := by
    match bytes with
    | b₀ :: b₁ :: b₂ :: b₃ :: rest =>
      refine .inr ⟨[b₀, b₁, b₂, b₃], rest, .ok (Word.ofBytes b₀ b₁ b₂ b₃), rfl, by simp,
        fun tail => rfl, ?_⟩
      intro k hk
      -- any shorter part has fewer than four bytes
      refine runsShort_word ?_
      rw [List.length_take]
      exact (Nat.min_le_left _ _).trans_lt hk
    | [] | [_] | [_, _] | [_, _, _] => exact .inl (runsShort_word (by simp))
  enough bytes h := by
    match bytes, h with
    | b₀ :: b₁ :: b₂ :: b₃ :: rest, _ =>
      have hok : word (b₀ :: b₁ :: b₂ :: b₃ :: rest)
          = outcome (.ok (Word.ofBytes b₀ b₁ b₂ b₃)) rest := rfl
      exact not_runsShort_of_eq (by simp) hok

/-! ### Sequencing -/

theorem bind_apply {ε σ : Type} (d : EStateM ε σ α) (f : α → EStateM ε σ β) (s : σ) :
    (d >>= f) s
      = match d s with
        | .ok a rest => f a rest
        | .error e rest => .error e rest := by
  show EStateM.bind d f s = _
  unfold EStateM.bind
  cases d s <;> rfl

theorem RunsShort.bind {d : Decoder α} {bytes : List UInt8} (h : d.RunsShort bytes)
    (f : α → Decoder β) : (d >>= f).RunsShort bytes := by
  obtain ⟨rest, hr⟩ := h
  exact ⟨rest, by rw [bind_apply, hr]⟩

/-- A sequence whose first part fails decides where the first part does. -/
theorem Settles.bind_error {d : Decoder α} {taken : List UInt8} {e : DecodeError}
    (h : d.Settles taken (.error e)) (f : α → Decoder β) :
    (d >>= f).Settles taken (.error e) where
  final heq := h.final (by rw [Except.error.inj heq])
  decides tail := by rw [bind_apply, h.decides]; rfl
  short k hk := (h.short k hk).bind f

/-- A sequence takes what its first part takes and then what its second part takes. -/
theorem Settles.bind_ok {d : Decoder α} {f : α → Decoder β} {taken taken' : List UInt8} {a : α}
    {r : Except DecodeError β} (h : d.Settles taken (.ok a)) (hf : (f a).Settles taken' r) :
    (d >>= f).Settles (taken ++ taken') r where
  final := hf.final
  decides tail := by rw [List.append_assoc, bind_apply, h.decides]; exact hf.decides tail
  short k hk := by
    by_cases hkt : k < taken.length
    · -- the cut falls into the first part
      rw [List.take_append_of_le_length hkt.le]
      exact (h.short k hkt).bind f
    · -- the first part is complete, and the cut falls into the second one
      obtain ⟨j, rfl⟩ : ∃ j, k = taken.length + j := ⟨k - taken.length, by omega⟩
      rw [List.length_append] at hk
      obtain ⟨rest, hr⟩ := hf.short j (by omega)
      refine ⟨rest, ?_⟩
      rw [List.take_length_add_append, bind_apply, h.decides]
      exact hr

/-- **Sequencing keeps decoders delimited**, and the limits add up. -/
theorem Delimited.bind {d : Decoder α} {f : α → Decoder β} {j k : Nat} (hd : d.Delimited j)
    (hf : ∀ a, (f a).Delimited k) : (d >>= f).Delimited (j + k) where
  settles bytes := by
    obtain hs | ⟨taken, rest, r, rfl, hr⟩ := hd.settles bytes
    · exact .inl (hs.bind f)
    -- the first part has decided, on an error or on what the second part begins with
    cases r with
    | error e => exact .inr ⟨taken, rest, .error e, rfl, hr.bind_error f⟩
    | ok a =>
      obtain ⟨left, hl⟩ | ⟨taken', rest', r', rfl, hr'⟩ := (hf a).settles rest
      · refine .inl ⟨left, ?_⟩
        rw [bind_apply, hr.decides]
        exact hl
      · exact .inr ⟨taken ++ taken', rest', r', by rw [List.append_assoc], hr.bind_ok hr'⟩
  enough bytes h := by
    obtain hs | ⟨taken, rest, r, rfl, hr⟩ := hd.settles bytes
    · exact absurd hs (hd.enough bytes (by omega))
    cases r with
    | error e => exact (hr.bind_error f).not_runsShort rest
    | ok a =>
      -- the first part takes at most `j` bytes, which leaves `k` for the second one
      have hlen : k ≤ rest.length := by
        have := hr.length_le hd
        rw [List.length_append] at h
        omega
      rintro ⟨left, hl⟩
      rw [bind_apply, hr.decides] at hl
      exact (hf a).enough rest hlen ⟨left, hl⟩

/-! ### Operand bytes -/

theorem runsShort_modRM_nil : modRM.RunsShort [] := ⟨[], rfl⟩

/-- An operand byte of a form that is not implemented decides alone. -/
theorem settles_modRM_of_unimplemented {b : UInt8}
    (h : ModRM.Unimplemented (ModRM.modeOf b) (ModRM.rmOf b)) :
    modRM.Settles [b] (.error (.unimplementedAddressing (UInt8.ofNat (ModRM.modeOf b).val)
      (UInt8.ofNat (ModRM.rmOf b).val))) where
  final := by simp
  decides tail := modRM_of_unimplemented h tail
  short k hk := by
    obtain rfl : k = 0 := Nat.lt_one_iff.1 hk
    exact runsShort_modRM_nil

/-- Any other operand byte decides together with its displacement. -/
theorem settles_modRM {b : UInt8} (h : ¬ ModRM.Unimplemented (ModRM.modeOf b) (ModRM.rmOf b))
    {bytes : List UInt8} (hb : bytes.length = ModRM.displacementLength (ModRM.modeOf b)) :
    modRM.Settles (b :: bytes)
      (.ok ⟨ModRM.modeOf b, ModRM.regOf b, ModRM.rmOf b, Word.signed bytes⟩) where
  final := by simp
  decides tail := modRM_append h hb tail
  short k hk := by
    cases k with
    | zero => exact runsShort_modRM_nil
    | succ j =>
      refine ⟨b :: bytes.take j, ?_⟩
      rw [List.take_succ_cons]
      refine modRM_of_short h ?_
      rw [List.length_cons] at hk
      rw [List.length_take]
      omega

/-- Where the displacement is complete the decoder decides, and looks no further. -/
theorem exists_settles_modRM {b : UInt8} {rest : List UInt8}
    (hr : ModRM.displacementLength (ModRM.modeOf b) ≤ rest.length) :
    ∃ taken left r, b :: rest = taken ++ left ∧ modRM.Settles taken r := by
  by_cases h : ModRM.Unimplemented (ModRM.modeOf b) (ModRM.rmOf b)
  · exact ⟨[b], rest, _, rfl, settles_modRM_of_unimplemented h⟩
  · have hs := settles_modRM h (List.length_take_of_le hr)
    refine ⟨_, rest.drop (ModRM.displacementLength (ModRM.modeOf b)), _, ?_, hs⟩
    rw [List.cons_append, List.take_append_drop]

theorem delimited_modRM : modRM.Delimited 5 where
  settles bytes := by
    cases bytes with
    | nil => exact .inl runsShort_modRM_nil
    | cons b rest =>
      obtain hr | hr := Nat.lt_or_ge rest.length (ModRM.displacementLength (ModRM.modeOf b))
      · by_cases h : ModRM.Unimplemented (ModRM.modeOf b) (ModRM.rmOf b)
        · -- the missing displacement is not asked for
          exact .inr ⟨[b], rest, _, rfl, settles_modRM_of_unimplemented h⟩
        · exact .inl ⟨_, modRM_of_short h hr⟩
      · exact .inr (exists_settles_modRM hr)
  enough bytes hlen := by
    cases bytes with
    | nil => simp at hlen
    | cons b rest =>
      -- no displacement is longer than four bytes
      have hn := ModRM.displacementLength_le (ModRM.modeOf b)
      rw [List.length_cons] at hlen
      have hr : ModRM.displacementLength (ModRM.modeOf b) ≤ rest.length := by omega
      obtain ⟨taken, left, r, heq, hs⟩ := exists_settles_modRM hr
      rw [heq]
      exact hs.not_runsShort left

/-! ### Instructions -/

theorem delimited_immediate (w : Width) : (immediate w).Delimited 4 := by
  cases w
  · exact (delimited_byte.bind fun _ => delimited_pure _).mono (by omega)
  · exact delimited_word.bind fun _ => delimited_pure _

theorem delimited_signedImmediate : signedImmediate.Delimited 4 :=
  (delimited_byte.bind fun _ => delimited_pure _).mono (by omega)

theorem delimited_relative (w : Width) : (relative w).Delimited 4 := by
  cases w
  · exact (delimited_byte.bind fun _ => delimited_pure _).mono (by omega)
  · exact delimited_word.bind fun _ => delimited_pure _

theorem delimited_grouped (m : ModRM) (op : GroupOp) : (grouped m op).Delimited 4 := by
  cases op with
  | arithmetic op => exact delimited_signedImmediate.bind fun _ => delimited_pure _
  | move w => exact (delimited_immediate w).bind fun _ => delimited_pure _
  | increment => exact (delimited_pure _).mono (by omega)

theorem delimited_operands (opcode : UInt8) (form : Form) :
    (operands opcode form).Delimited 9 := by
  cases form with
  | rmReg op w => exact (delimited_modRM.bind fun _ => delimited_pure _).mono (by omega)
  | regRM op w => exact (delimited_modRM.bind fun _ => delimited_pure _).mono (by omega)
  | regImm op w code =>
    exact ((delimited_immediate w).bind fun _ => delimited_pure _).mono (by omega)
  | reg op code => exact (delimited_pure _).mono (by omega)
  | pushImm w =>
    cases w
    · exact (delimited_signedImmediate.bind fun _ => delimited_pure _).mono (by omega)
    · exact ((delimited_immediate _).bind fun _ => delimited_pure _).mono (by omega)
  | relative op w => exact ((delimited_relative w).bind fun _ => delimited_pure _).mono (by omega)
  | vector op => exact ((delimited_immediate _).bind fun _ => delimited_pure _).mono (by omega)
  | complete i => exact (delimited_pure _).mono (by omega)
  | group =>
    -- the longest form: an operand byte with its displacement, and a constant
    exact delimited_modRM.bind fun m =>
      ((delimited_ofExcept (GroupOp.ofCodes_ne_truncated _ _)).bind fun op =>
        delimited_grouped m op)

theorem delimited_instruction : instruction.Delimited maxLength :=
  delimited_byte.bind fun opcode =>
    (delimited_ofExcept (Form.ofOpcode_ne_truncated opcode)).bind fun form =>
      delimited_operands opcode form

/-! ### Decoding at an index -/

theorem decode_append {d : Decoder α} {taken rest : List UInt8} {r : Except DecodeError α}
    (h : d (taken ++ rest) = outcome r rest) : d.decode (taken ++ rest) = ⟨r, taken, rest⟩ := by
  cases r <;> simp [decode, h, outcome]

/-- No more bytes are looked at than the longest instruction has. -/
theorem decode_take (bytes : List UInt8) :
    (instruction.decode (bytes.take maxLength)).result = (instruction.decode bytes).result ∧
      (instruction.decode (bytes.take maxLength)).consumed
        = (instruction.decode bytes).consumed := by
  obtain hs | ⟨taken, rest, r, rfl, hs⟩ := delimited_instruction.settles bytes
  · -- fewer bytes than that are there
    have hlen : bytes.length < maxLength :=
      Nat.lt_of_not_le fun h => delimited_instruction.enough bytes h hs
    rw [List.take_of_length_le hlen.le]
    exact ⟨rfl, rfl⟩
  · have hlen := hs.length_le delimited_instruction
    rw [List.take_append, List.take_of_length_le hlen, decode_append (hs.decides _),
      decode_append (hs.decides _)]
    exact ⟨rfl, rfl⟩

/-- What comes of decoding an instruction at an index of some bytes, and how many bytes were
consumed. -/
def instructionAt (bytes : List UInt8) (start : Nat) : Except DecodeError Instruction × Nat :=
  let (result, cursor) := (Cursor.place bytes start).next instruction
  (result, cursor.moved)

/-- The outcome depends on the bytes from the index on, and on nothing before it. -/
theorem instructionAt_congr {bytes bytes' : List UInt8} {start start' : Nat}
    (h : bytes'.drop start' = bytes.drop start) :
    instructionAt bytes' start' = instructionAt bytes start := by
  simp only [instructionAt, Cursor.place, Cursor.next, h]

/-- Where the decoder settles, the outcome is its decision and the bytes it took. -/
theorem instructionAt_of_settles {bytes taken rest : List UInt8} {start : Nat}
    {r : Except DecodeError Instruction} (hb : bytes.drop start = taken ++ rest)
    (h : instruction.Settles taken r) : instructionAt bytes start = (r, taken.length) := by
  simp only [instructionAt, Cursor.place, Cursor.next, Cursor.moved, hb,
    decode_append (h.decides rest), List.nil_append]

/-- The outcome is that bytes are missing exactly if they run short. -/
theorem instructionAt_eq_truncated_iff (bytes : List UInt8) (start : Nat) :
    (instructionAt bytes start).1 = .error .truncated
      ↔ instruction.RunsShort (bytes.drop start) := by
  simp only [instructionAt, Cursor.place, Cursor.next, decode, RunsShort]
  cases instruction (bytes.drop start) with
  | ok i rest => simp
  | error e rest => simp

/-- **Instructions delimit themselves.** The outcome of decoding depends only on the bytes from
the index on. If these bytes suffice for a decision, it depends only on those that are consumed,
all of which are needed; an instruction consumes at least one byte and at most ten. If the bytes
do not suffice, there are fewer than ten, and more of them can lead to a decision. -/
theorem instructionAt_selfDelimiting (bytes : List UInt8) (start : Nat) :
    (∀ bytes' start', bytes'.drop start' = bytes.drop start →
      instructionAt bytes' start' = instructionAt bytes start) ∧
    ((instructionAt bytes start).1 ≠ .error .truncated →
      (∀ bytes' start',
        (bytes'.drop start').take (instructionAt bytes start).2
            = (bytes.drop start).take (instructionAt bytes start).2 →
          instructionAt bytes' start' = instructionAt bytes start) ∧
      ∀ k < (instructionAt bytes start).2, ∀ bytes' start',
        bytes'.drop start' = (bytes.drop start).take k →
          (instructionAt bytes' start').1 = .error .truncated) ∧
    (∀ i, (instructionAt bytes start).1 = .ok i →
      1 ≤ (instructionAt bytes start).2 ∧ (instructionAt bytes start).2 ≤ 10) ∧
    ((instructionAt bytes start).1 = .error .truncated →
      (bytes.drop start).length < 10 ∧
      ∃ extension, (instructionAt (bytes.drop start ++ extension) 0).1 ≠ .error .truncated) := by
  refine ⟨fun bytes' start' h => instructionAt_congr h, ?_, ?_, ?_⟩
  · intro hne
    rw [ne_eq, instructionAt_eq_truncated_iff] at hne
    obtain ⟨taken, rest, r, hb, hs⟩ := (delimited_instruction.settles _).resolve_left hne
    rw [instructionAt_of_settles hb hs, hb, List.take_left]
    refine ⟨fun bytes' start' h => ?_, fun k hk bytes' start' h => ?_⟩
    · -- the other bytes begin with those taken, and these have decided
      have hsplit := List.take_append_drop taken.length (bytes'.drop start')
      rw [h] at hsplit
      exact instructionAt_of_settles hsplit.symm hs
    · rw [instructionAt_eq_truncated_iff, h, List.take_append_of_le_length hk.le]
      exact hs.short k hk
  · intro i hi
    obtain hs | ⟨taken, rest, r, hb, hs⟩ := delimited_instruction.settles (bytes.drop start)
    · rw [(instructionAt_eq_truncated_iff bytes start).2 hs] at hi
      cases hi
    rw [instructionAt_of_settles hb hs] at hi ⊢
    refine ⟨Nat.pos_of_ne_zero fun hzero => ?_, hs.length_le delimited_instruction⟩
    -- without a leading byte nothing is decided
    obtain rfl := List.length_eq_zero_iff.1 hzero
    exact hs.not_runsShort [] (runsShort_byte_nil.bind _)
  · intro hshort
    rw [instructionAt_eq_truncated_iff] at hshort
    refine ⟨Nat.lt_of_not_le fun h => delimited_instruction.enough _ h hshort, ?_⟩
    -- as many bytes as the longest instruction has are always enough
    refine ⟨List.replicate maxLength 0, ?_⟩
    rw [ne_eq, instructionAt_eq_truncated_iff, List.drop_zero]
    refine delimited_instruction.enough _ ?_
    rw [List.length_append, List.length_replicate]
    exact Nat.le_add_left ..

/-- `add dword [eax-4], ecx` inside other bytes: what follows its three bytes does not matter,
and two of them are too few. -/
theorem instructionAt_selfDelimiting_add :
    (instructionAt [0xee, 0x01, 0x48, 0xfc, 0x77] 1).1 ≠ .error .truncated ∧
    ([0x01, 0x48, 0xfc, 0xc3].drop 0).take 3 = ([0xee, 0x01, 0x48, 0xfc, 0x77].drop 1).take 3 ∧
    instructionAt [0x01, 0x48, 0xfc, 0xc3] 0
      = (.ok ⟨.add, .dword, .mem .eax (-4), .reg .ecx⟩, 3) ∧
    (instructionAt [0x01, 0x48] 0).1 = .error .truncated ∧
    ∃ extension, (instructionAt ([0x01, 0x48] ++ extension) 0).1 ≠ .error .truncated := by
  have heval : instructionAt [0xee, 0x01, 0x48, 0xfc, 0x77] 1
      = (.ok ⟨.add, .dword, .mem .eax (-4), .reg .ecx⟩, 3) := by rfl
  have hne : (instructionAt [0xee, 0x01, 0x48, 0xfc, 0x77] 1).1 ≠ .error .truncated := by
    simp [heval]
  have hmain := (instructionAt_selfDelimiting [0xee, 0x01, 0x48, 0xfc, 0x77] 1).2.1 hne
  have hshort : (instructionAt [0x01, 0x48] 0).1 = .error .truncated :=
    hmain.2 2 (by simp [heval]) _ _ rfl
  exact ⟨hne, rfl, (hmain.1 _ _ rfl).trans heval, hshort,
    ((instructionAt_selfDelimiting [0x01, 0x48] 0).2.2.2 hshort).2⟩

end Boot386.Decoder
