import Boot386.Proofs.Machine.Transcript
import Boot386.Proofs.Numeral
import Boot386.Proofs.Text

/-!
# Faults are told apart by their messages

A message says everything about its fault (`Fault.message_inj`), although it mixes numerals of all
forms, a list of bytes of any length and free text:

* the first letter tells the kind of fault;
* every numeral ends where the first character stands that is in no numeral
  (`Numeral.append_inj`), so that it can be cut out of the message and read back;
* each byte of a list is followed by a comma if there is another one and by a bracket if there is
  none, so that the list ends where it seems to (`Fault.bytesText_append_inj`);
* the free text, and the message about the bytes, stand at the end.
-/

namespace Boot386

/-! ### Numerals inside a text -/

namespace Numeral

/-- The characters that numerals are made of. -/
def isFigure (c : Char) : Bool :=
  decide (c ∈ 'x' :: digits)

/-- The text is made of these characters only. -/
def IsNumeral (s : String) : Prop :=
  ∀ c ∈ s.toList, isFigure c = true

theorem isFigure_of_mem_digits {c : Char} (h : c ∈ digits) : isFigure c = true :=
  decide_eq_true (List.mem_cons_of_mem _ h)

theorem isNumeral_decimal (n : Nat) : IsNumeral (decimal n) := by
  intro c hc
  rw [decimal, String.toList_ofList] at hc
  exact isFigure_of_mem_digits (mem_digits_of_mem_toDigits (by decide) (by decide) hc)

theorem isNumeral_paddedHex (width n : Nat) : IsNumeral (paddedHex width n) :=
  fun _ hc => isFigure_of_mem_digits (mem_digits_of_mem_paddedHex hc)

theorem isNumeral_hex (n : Nat) : IsNumeral (hex n) := by
  intro c hc
  rw [toList_hex, List.mem_cons, List.mem_cons] at hc
  obtain rfl | rfl | hc := hc
  · decide
  · decide
  · exact isFigure_of_mem_digits (mem_digits_of_mem_toDigits (by decide) (by decide) hc)

theorem IsNumeral.append {s t : String} (hs : IsNumeral s) (ht : IsNumeral t) :
    IsNumeral (s ++ t) := by
  intro c hc
  rw [String.toList_append, List.mem_append] at hc
  exact hc.elim (hs c) (ht c)

theorem isNumeral_octet (b : UInt8) : IsNumeral (octet b) :=
  IsNumeral.append (List.all_eq_true.1 (by decide)) (isNumeral_paddedHex 2 _)

theorem isNumeral_address (a : UInt32) : IsNumeral (address a) :=
  IsNumeral.append (List.all_eq_true.1 (by decide)) (isNumeral_paddedHex 8 _)

/-- The text begins with a character that is in no numeral. -/
def Delimits (s : String) : Prop :=
  (s.toList.head?.any fun c => !isFigure c) = true

instance : DecidablePred Delimits := fun _ => inferInstanceAs (Decidable (_ = true))

theorem Delimits.append {s : String} (h : Delimits s) (rest : String) : Delimits (s ++ rest) := by
  unfold Delimits at h ⊢
  rw [String.toList_append]
  cases hs : s.toList with
  | nil => simp [hs] at h
  | cons c cs => simpa [hs] using h

theorem Delimits.stops {s : String} (h : Delimits s) : Text.Stops isFigure s.toList := by
  unfold Delimits at h
  cases hs : s.toList with
  | nil => trivial
  | cons c cs => simpa [hs, Text.Stops] using h

/-- **A numeral is taken off the front.** -/
theorem append_inj {s t rest rest' : String} (hs : IsNumeral s) (ht : IsNumeral t)
    (hrest : Delimits rest) (hrest' : Delimits rest') :
    s ++ rest = t ++ rest' ↔ s = t ∧ rest = rest' := by
  rw [← String.toList_inj, String.toList_append, String.toList_append,
    Text.append_inj_of_stops hs ht hrest.stops hrest'.stops, String.toList_inj]

/-- A numeral and what ends it are taken off the front. -/
theorem append_delimiter_inj {s t rest rest' : String} (u : String) (hu : Delimits u)
    (hs : IsNumeral s) (ht : IsNumeral t) :
    s ++ (u ++ rest) = t ++ (u ++ rest') ↔ s = t ∧ rest = rest' := by
  rw [append_inj hs ht (hu.append rest) (hu.append rest'), String.append_right_inj]

end Numeral

/-! ### Messages -/

/-- **Decode errors are told apart by their messages.** -/
theorem DecodeError.message_inj {e e' : DecodeError} : e.message = e'.message ↔ e = e' := by
  refine ⟨fun h => ?_, fun h => by rw [h]⟩
  cases e <;> cases e' <;> dsimp only [message] at h
  case unknownOpcode.unknownOpcode opcode opcode' =>
    rw [String.append_right_inj, Numeral.octet_inj] at h
    rw [h]
  case unknownSubOpcode.unknownSubOpcode opcode sub opcode' sub' =>
    simp only [String.append_assoc, String.append_right_inj] at h
    rw [Numeral.append_delimiter_inj " /" (by decide) (Numeral.isNumeral_octet _)
      (Numeral.isNumeral_octet _), Numeral.octet_inj, Numeral.decimal_inj, UInt8.toNat_inj] at h
    rw [h.1, h.2]
  case unimplementedAddressing.unimplementedAddressing mode rm mode' rm' =>
    simp only [String.append_assoc, String.append_right_inj] at h
    rw [Numeral.append_delimiter_inj " rm=" (by decide) (Numeral.isNumeral_decimal _)
      (Numeral.isNumeral_decimal _), Numeral.decimal_inj, Numeral.decimal_inj, UInt8.toNat_inj,
      UInt8.toNat_inj] at h
    rw [h.1, h.2]
  case truncated.truncated => rfl
  all_goals
    -- the first words are different
    rw [← String.toList_inj] at h
    simp [String.toList_append] at h

namespace Fault

/-- The bytes of a list behind the first one, as they are written. -/
def furtherBytes (bytes : List UInt8) : String :=
  String.join (bytes.map fun b => ", " ++ Numeral.paddedHex 2 b.toNat)

theorem furtherBytes_nil : furtherBytes [] = "" := String.join_nil

theorem furtherBytes_cons (b : UInt8) (bytes : List UInt8) :
    furtherBytes (b :: bytes) = ", " ++ (Numeral.paddedHex 2 b.toNat ++ furtherBytes bytes) := by
  rw [furtherBytes, List.map_cons, String.join_cons, String.append_assoc, furtherBytes]

/-- The first byte of a list is written alone, and all others behind a comma. -/
theorem bytesText_cons (b : UInt8) (bytes : List UInt8) :
    bytesText (b :: bytes)
      = "[" ++ (Numeral.paddedHex 2 b.toNat ++ (furtherBytes bytes ++ "]")) := by
  -- a comma between two bytes is one in front of all but the first
  have hlist : String.intercalate ", " ((b :: bytes).map fun b => Numeral.paddedHex 2 b.toNat)
      = Numeral.paddedHex 2 b.toNat ++ furtherBytes bytes := by
    induction bytes generalizing b with
    | nil =>
      rw [List.map_cons, List.map_nil, String.intercalate_singleton, furtherBytes_nil,
        String.append_empty]
    | cons c bytes ih =>
      have hc := ih c
      rw [List.map_cons] at hc
      rw [List.map_cons, List.map_cons, String.intercalate_cons_cons, hc, furtherBytes_cons,
        String.append_assoc]
  rw [bytesText, hlist, String.append_assoc, String.append_assoc]

/-- What follows a byte in a list is in no numeral: a comma or a bracket. -/
theorem delimits_furtherBytes (bytes : List UInt8) (rest : String) :
    Numeral.Delimits (furtherBytes bytes ++ ("]" ++ rest)) := by
  have hcomma : Numeral.Delimits ", " := by decide
  have hbracket : Numeral.Delimits "]" := by decide
  cases bytes with
  | nil =>
    rw [furtherBytes_nil, String.empty_append]
    exact hbracket.append rest
  | cons b bytes =>
    rw [furtherBytes_cons, String.append_assoc]
    exact hcomma.append _

/-- A list ends where there is a bracket and no comma. -/
theorem furtherBytes_append_inj {bytes bytes' : List UInt8} {rest rest' : String} :
    furtherBytes bytes ++ ("]" ++ rest) = furtherBytes bytes' ++ ("]" ++ rest')
      ↔ bytes = bytes' ∧ rest = rest' := by
  refine ⟨fun h => ?_, fun ⟨h, h'⟩ => by rw [h, h']⟩
  induction bytes generalizing bytes' with
  | nil =>
    cases bytes' with
    | nil =>
      rw [String.append_right_inj, String.append_right_inj] at h
      exact ⟨rfl, h⟩
    | cons b' bytes' =>
      -- a bracket is no comma
      rw [← String.toList_inj] at h
      simp [furtherBytes_nil, furtherBytes_cons, String.toList_append] at h
  | cons b bytes ih =>
    cases bytes' with
    | nil =>
      rw [← String.toList_inj] at h
      simp [furtherBytes_nil, furtherBytes_cons, String.toList_append] at h
    | cons b' bytes' =>
      rw [furtherBytes_cons, furtherBytes_cons] at h
      simp only [String.append_assoc, String.append_right_inj] at h
      rw [Numeral.append_inj (Numeral.isNumeral_paddedHex 2 _) (Numeral.isNumeral_paddedHex 2 _)
        (delimits_furtherBytes bytes rest) (delimits_furtherBytes bytes' rest'),
        Numeral.paddedHex_inj, UInt8.toNat_inj] at h
      obtain ⟨rfl, h⟩ := h
      obtain ⟨rfl, hrest⟩ := ih h
      exact ⟨rfl, hrest⟩

theorem bytesText_nil : bytesText [] = "[" ++ "]" := by
  rw [bytesText, List.map_nil, String.intercalate_nil, String.append_empty]

/-- A list that ends at once has no first byte. -/
theorem bracket_ne_byte (b : UInt8) (bytes : List UInt8) (rest rest' : String) :
    "]" ++ rest ≠ Numeral.paddedHex 2 b.toNat ++ (furtherBytes bytes ++ ("]" ++ rest')) := by
  intro h
  have hbracket : Numeral.Delimits "]" := by decide
  have hempty : Numeral.IsNumeral "" := fun c hc => absurd hc List.not_mem_nil
  rw [← String.empty_append (s := "]" ++ rest), Numeral.append_inj hempty
    (Numeral.isNumeral_paddedHex 2 _) (hbracket.append rest)
    (delimits_furtherBytes bytes rest')] at h
  have hlen := Numeral.length_paddedHex 2 (by decide) b.toNat_lt
  rw [← h.1] at hlen
  cases hlen

/-- **A list of bytes is taken off the front.** -/
theorem bytesText_append_inj {bytes bytes' : List UInt8} {rest rest' : String} :
    bytesText bytes ++ rest = bytesText bytes' ++ rest' ↔ bytes = bytes' ∧ rest = rest' := by
  refine ⟨fun h => ?_, fun ⟨h, h'⟩ => by rw [h, h']⟩
  cases bytes with
  | nil =>
    cases bytes' with
    | nil => exact ⟨rfl, (String.append_right_inj _).1 h⟩
    | cons b' bytes' =>
      simp only [bytesText_nil, bytesText_cons, String.append_assoc, String.append_right_inj] at h
      exact absurd h (bracket_ne_byte b' bytes' _ _)
  | cons b bytes =>
    cases bytes' with
    | nil =>
      simp only [bytesText_nil, bytesText_cons, String.append_assoc, String.append_right_inj] at h
      exact absurd h.symm (bracket_ne_byte b bytes _ _)
    | cons b' bytes' =>
      -- the first bytes, and then all others
      simp only [bytesText_cons, String.append_assoc, String.append_right_inj] at h
      rw [Numeral.append_inj (Numeral.isNumeral_paddedHex 2 _) (Numeral.isNumeral_paddedHex 2 _)
        (delimits_furtherBytes bytes rest) (delimits_furtherBytes bytes' rest'),
        Numeral.paddedHex_inj, UInt8.toNat_inj, furtherBytes_append_inj] at h
      obtain ⟨rfl, rfl, hrest⟩ := h
      exact ⟨rfl, hrest⟩

/-- The first letter of a message. -/
def initial : Fault → Char
  | decode .. => 'd'
  | outOfBounds .. => 'm'
  | imageTooLarge .. => 'i'
  | console .. => 'c'

theorem head?_message (f : Fault) : f.message.toList.head? = some f.initial := by
  cases f <;> dsimp only [message] <;> simp [String.toList_append, initial]

/-- **Faults are told apart by their messages.** -/
theorem message_inj {f f' : Fault} : f.message = f'.message ↔ f = f' := by
  refine ⟨fun h => ?_, fun h => by rw [h]⟩
  have hinitial : f.initial = f'.initial := by
    have hhead := f.head?_message
    rw [h, head?_message] at hhead
    exact (Option.some.inj hhead).symm
  cases f <;> cases f' <;> dsimp only [message] at h
  case decode.decode eip bytes source eip' bytes' source' =>
    simp only [String.append_assoc, String.append_right_inj] at h
    rw [Numeral.append_delimiter_inj " (bytes " (by decide) (Numeral.isNumeral_address _)
      (Numeral.isNumeral_address _), Numeral.address_inj, bytesText_append_inj,
      String.append_right_inj, DecodeError.message_inj] at h
    obtain ⟨rfl, rfl, rfl⟩ := h
    rfl
  case outOfBounds.outOfBounds address length capacity address' length' capacity' =>
    simp only [String.append_assoc, String.append_right_inj] at h
    rw [Numeral.append_delimiter_inj " len=" (by decide) (Numeral.isNumeral_address _)
      (Numeral.isNumeral_address _), Numeral.append_delimiter_inj " capacity=" (by decide)
      (Numeral.isNumeral_decimal _) (Numeral.isNumeral_decimal _), Numeral.address_inj,
      Numeral.decimal_inj, Numeral.hex_inj] at h
    obtain ⟨rfl, rfl, rfl⟩ := h
    rfl
  case imageTooLarge.imageTooLarge origin length capacity origin' length' capacity' =>
    simp only [String.append_assoc, String.append_right_inj] at h
    rw [Numeral.append_delimiter_inj " bytes does not fit at origin " (by decide)
      (Numeral.isNumeral_decimal _) (Numeral.isNumeral_decimal _),
      Numeral.append_delimiter_inj " (capacity " (by decide) (Numeral.isNumeral_hex _)
      (Numeral.isNumeral_hex _), String.append_left_inj, Numeral.decimal_inj, Numeral.hex_inj,
      Numeral.hex_inj, UInt32.toNat_inj] at h
    obtain ⟨rfl, rfl, rfl⟩ := h
    rfl
  case console.console reason reason' => rw [(String.append_right_inj _).1 h]
  all_goals
    -- the first letters are different
    exact absurd hinitial (by simp [initial])

end Fault

/-! ### What a machine tells of its fault -/

namespace Machine

/-- The text of the last entry of the log. -/
def lastMessage? (m : Machine) : Option String :=
  m.log.back?.map Event.message

/-- A machine that has faulted has told its fault last. -/
theorem lastMessage?_run_of_faulted {m : Machine} (hm : m.status = .running) {n : Nat} {f : Fault}
    (hf : (m.run n).status = .faulted f) : (m.run n).lastMessage? = some f.message := by
  induction n with
  | zero =>
    rw [run_zero, hm] at hf
    cases hf
  | succ n ih =>
    rw [run_succ_eq_step] at hf ⊢
    by_cases hrun : (m.run n).status = .running
    · have hlog := (log_step_of_faulted hrun hf).1
      rw [lastMessage?, ← Array.getLast?_toList, hlog, List.getLast?_concat]
      rfl
    · -- the fault has happened before
      rw [step_of_halted hrun] at hf ⊢
      exact ih hf

/-- **Diagnostics identify the fault.** Two faults with the same message are the same fault, in kind
and in all details. So it can be told from the last text in the logs of two runs whether they have
ended with the same fault. -/
theorem fault_of_message :
    (∀ f f' : Fault, f.message = f'.message ↔ f = f') ∧
    ∀ (m m' : Machine) (n n' : Nat) (f f' : Fault), m.status = .running → m'.status = .running →
      (m.run n).status = .faulted f → (m'.run n').status = .faulted f' →
      ((m.run n).lastMessage? = (m'.run n').lastMessage? ↔ f = f') := by
  refine ⟨fun f f' => Fault.message_inj, fun m m' n n' f f' hm hm' hf hf' => ?_⟩
  rw [lastMessage?_run_of_faulted hm hf, lastMessage?_run_of_faulted hm' hf', Option.some.injEq,
    Fault.message_inj]

/-- A displacement is cut off by the end of the memory, and so is a constant. The faults differ only
in the bytes that have been looked at. -/
theorem fault_of_message_truncated :
    let boot (image : List UInt8) : Machine :=
      { Machine.boot ⟨2, 0, true⟩ {} with memory := (Memory.ofSize 2).store 0 image }
    (boot [0x83, 0x45]).status = .running ∧ (boot [0x83, 0xc0]).status = .running ∧
    ((boot [0x83, 0x45]).run 1).status = .faulted (.decode 0 [0x83] .truncated) ∧
    ((boot [0x83, 0xc0]).run 1).status = .faulted (.decode 0 [0x83, 0xc0] .truncated) ∧
    ((boot [0x83, 0x45]).run 1).lastMessage? ≠ ((boot [0x83, 0xc0]).run 1).lastMessage? ∧
    (Fault.decode 0 [0x83] .truncated).message ≠ (Fault.decode 0 [0x83, 0xc0] .truncated).message
    := by
  intro boot
  -- the displacement is missing in the one image, and the constant in the other one
  have hf : ((boot [0x83, 0x45]).run 1).status = .faulted (.decode 0 [0x83] .truncated) := by
    decide +kernel
  have hf' : ((boot [0x83, 0xc0]).run 1).status = .faulted (.decode 0 [0x83, 0xc0] .truncated) := by
    decide +kernel
  have hne : Fault.decode 0 [0x83] .truncated ≠ .decode 0 [0x83, 0xc0] .truncated := by decide
  exact ⟨rfl, rfl, hf, hf', mt (fault_of_message.2 _ _ 1 1 _ _ rfl rfl hf hf').1 hne,
    mt (fault_of_message.1 _ _).1 hne⟩

end Machine

end Boot386
