import Mathlib.Data.List.Nodup
import Boot386.Instruction.Text
import Boot386.Proofs.Numeral
import Boot386.Proofs.Text
import Boot386.Proofs.Machine.Access

/-!
# The text of an instruction is unambiguous

The text drops the width unless it has to be announced, writes a zero displacement as nothing, and
uses the same punctuation in several forms. Nevertheless the instructions that the decoder builds
are told apart by their texts (`instructionAt_eq_of_text_eq`):

* a text is made of words, with a blank or a comma behind all but the last one
  (`Text.append_inj` takes one word off the front);
* the first word is the mnemonic, and it determines the operation (`Op.mnemonic_inj`);
* the operation determines which kinds of operands there are (`Instruction.Written`);
* operands with a value are single words and are told apart by them (`Operand.text_inj`);
* the width is that of the operation, or of a register, or it is announced
  (`Instruction.width_eq_of_announced_eq`).
-/

namespace Boot386

/-! ### Words -/

namespace Text

/-- Whether a character stands between words. -/
def isSeparator (c : Char) : Bool :=
  c == ' ' || c == ','

/-- There are no separators in the text. -/
def IsWord (s : String) : Prop :=
  ∀ c ∈ s.toList, isSeparator c = false

instance : DecidablePred IsWord := fun s =>
  List.decidableBAll (fun c => isSeparator c = false) s.toList

/-- What can follow a word: nothing, or something that begins with a separator. -/
def EndsWord : List Char → Prop
  | [] => True
  | c :: _ => isSeparator c = true

theorem IsWord.append {s t : String} (hs : IsWord s) (ht : IsWord t) : IsWord (s ++ t) := by
  intro c hc
  rw [String.toList_append, List.mem_append] at hc
  exact hc.elim (hs c) (ht c)

theorem isWord_hex (n : Nat) : IsWord (Numeral.hex n) := by
  have hdigits : IsWord (String.ofList Numeral.digits) := by decide
  intro c hc
  rw [Numeral.toList_hex, List.mem_cons, List.mem_cons] at hc
  obtain rfl | rfl | hc := hc
  · rfl
  · rfl
  · refine hdigits c ?_
    rw [String.toList_ofList]
    exact Numeral.mem_digits_of_mem_toDigits (by decide) (by decide) hc

theorem EndsWord.stops {rest : List Char} (h : EndsWord rest) :
    Stops (fun c => !isSeparator c) rest := by
  cases rest with
  | nil => trivial
  | cons c rest =>
    have hc : isSeparator c = true := h
    simp [Stops, hc]

/-- **A word is taken off the front.** -/
theorem append_inj {s t : String} {rest rest' : List Char} (hs : IsWord s) (ht : IsWord t)
    (hrest : EndsWord rest) (hrest' : EndsWord rest') :
    s.toList ++ rest = t.toList ++ rest' ↔ s = t ∧ rest = rest' :=
  append_inj_of_stops (fun c hc => by rw [hs c hc, Bool.not_false])
    (fun c hc => by rw [ht c hc, Bool.not_false]) hrest.stops hrest'.stops

end Text

open Text

/-! ### Mnemonics -/

/-- All operations. -/
def Op.all : List Op :=
  [.mov, .add, .sub, .cmp, .inc, .push, .pop, .call, .ret, .leave, .jmp, .input, .output,
    .interrupt] ++ Condition.all.map .jcc

theorem Op.mem_all (op : Op) : op ∈ Op.all := by
  cases op with
  | jcc c => cases c <;> decide
  | _ => decide

theorem Op.mnemonic_inj {op op' : Op} : op.mnemonic = op'.mnemonic ↔ op = op' := by
  have hnodup : (Op.all.map Op.mnemonic).Nodup := by decide +kernel
  exact ⟨List.inj_on_of_nodup_map hnodup op.mem_all op'.mem_all, fun h => by rw [h]⟩

theorem Op.isWord_mnemonic (op : Op) : IsWord op.mnemonic := by
  have hall : ∀ op ∈ Op.all, IsWord op.mnemonic := by decide
  exact hall op op.mem_all

theorem Width.isWord_keyword (w : Width) : IsWord w.keyword := by
  cases w <;> decide

theorem Width.keyword_inj {w w' : Width} : w.keyword = w'.keyword ↔ w = w' := by
  cases w <;> cases w' <;> decide

/-! ### Operands -/

namespace Operand

/-- The register operands. -/
def registers : List Operand :=
  Reg.all.map reg ++ Reg8.all.map reg8

/-- The operand is a register, a place in memory or a constant. -/
inductive Plain : Operand → Prop where
  | register {o : Operand} (h : o ∈ registers) : Plain o
  | mem (base : Reg) (d : Int32) : Plain (mem base d)
  | imm (v : UInt32) : Plain (imm v)

theorem reg_mem_registers (r : Reg) : reg r ∈ registers := by
  cases r <;> decide

theorem reg8_mem_registers (r : Reg8) : reg8 r ∈ registers := by
  cases r <;> decide

theorem Writable.plain {o : Operand} (h : o.Writable) : o.Plain := by
  cases o with
  | reg r => exact .register (reg_mem_registers r)
  | reg8 r => exact .register (reg8_mem_registers r)
  | mem base d => exact .mem base d
  | _ => cases h

theorem Plain.ne_absent {o : Operand} (h : o.Plain) : o ≠ absent := by
  rintro rfl
  cases h with
  | register h => exact absurd h (by decide)

theorem Plain.ne_rel {o : Operand} (h : o.Plain) (d : Int32) : o ≠ rel d := by
  rintro rfl
  cases h with
  | register h => simp [registers] at h

/-- No two registers have the same name. -/
theorem text_inj_of_mem_registers {o o' : Operand} (h : o ∈ registers) (h' : o' ∈ registers)
    (ht : o.text = o'.text) : o = o' :=
  have hnodup : (registers.map text).Nodup := by decide
  List.inj_on_of_nodup_map hnodup h h' ht

/-- No name begins like a constant or like a place in memory. -/
theorem head?_text_of_mem_registers {o : Operand} (h : o ∈ registers) :
    o.text.toList.head? ≠ some '0' ∧ o.text.toList.head? ≠ some '[' := by
  revert o
  decide

theorem isWord_of_mem_registers {o : Operand} (h : o ∈ registers) : IsWord o.text := by
  revert o
  decide

theorem isWord_displacementText (d : Int) : IsWord (displacementText d) := by
  unfold displacementText
  split
  · decide
  · split
    · exact IsWord.append (by decide) (isWord_hex _)
    · exact IsWord.append (by decide) (isWord_hex _)

/-- The sign and the magnitude determine a displacement, and only zero has neither. -/
theorem displacementText_inj {d e : Int} : displacementText d = displacementText e ↔ d = e := by
  refine ⟨fun h => ?_, fun h => by rw [h]⟩
  unfold displacementText at h
  rw [← String.toList_inj] at h
  repeat' split at h
  all_goals
    simp only [String.toList_append, String.reduceToList, List.cons_append, List.nil_append,
      List.cons.injEq, true_and, String.toList_inj, Numeral.hex_inj, Char.reduceEq, false_and,
      reduceCtorEq] at h
  all_goals omega

theorem toList_text_imm (v : UInt32) :
    (imm v).text.toList = '0' :: 'x' :: Nat.toDigits 16 v.toNat :=
  Numeral.toList_hex _

theorem toList_text_mem (base : Reg) (d : Int32) :
    (mem base d).text.toList
      = '[' :: (base.name.toList ++ ((displacementText d.toInt).toList ++ [']'])) := by
  simp [text, String.toList_append]

/-- The base register takes three characters, and the displacement is the rest. -/
theorem text_mem_inj {base base' : Reg} {d d' : Int32}
    (h : (mem base d).text = (mem base' d').text) : base = base' ∧ d = d' := by
  have hlen : ∀ r : Reg, r.name.toList.length = 3 := fun r => by cases r <;> rfl
  rw [← String.toList_inj, toList_text_mem, toList_text_mem, List.cons_inj_right] at h
  obtain ⟨hname, hrest⟩ := List.append_inj h ((hlen base).trans (hlen base').symm)
  have hbase := text_inj_of_mem_registers (reg_mem_registers base) (reg_mem_registers base')
    (String.toList_inj.1 hname)
  have hd := displacementText_inj.1 (String.toList_inj.1 (List.append_cancel_right hrest))
  exact ⟨reg.inj hbase, Int32.toInt_inj.1 hd⟩

theorem Plain.isWord_text {o : Operand} (h : o.Plain) : IsWord o.text := by
  cases h with
  | register h => exact isWord_of_mem_registers h
  | mem base d =>
    have hbase : IsWord base.name := isWord_of_mem_registers (reg_mem_registers base)
    have hopened : IsWord ("[" ++ base.name) := IsWord.append (by decide) hbase
    exact (hopened.append (isWord_displacementText _)).append (by decide)
  | imm v => exact isWord_hex _

/-- **Operands are told apart by their texts.** -/
theorem text_inj {o o' : Operand} (h : o.Plain) (h' : o'.Plain) : o.text = o'.text ↔ o = o' := by
  refine ⟨fun ht => ?_, fun ht => by rw [ht]⟩
  have hhead : o.text.toList.head? = o'.text.toList.head? := by rw [ht]
  -- operands of different kinds begin differently
  cases h with
  | register h =>
    have hne := head?_text_of_mem_registers h
    cases h' with
    | register h' => exact text_inj_of_mem_registers h h' ht
    | mem base d => exact absurd (hhead.trans (by rw [toList_text_mem]; rfl)) hne.2
    | imm v => exact absurd (hhead.trans (by rw [toList_text_imm]; rfl)) hne.1
  | mem base d =>
    rw [toList_text_mem] at hhead
    cases h' with
    | register h' => exact absurd hhead.symm (head?_text_of_mem_registers h').2
    | mem base' d' =>
      obtain ⟨rfl, rfl⟩ := text_mem_inj ht
      rfl
    | imm v => simp [toList_text_imm] at hhead
  | imm v =>
    rw [toList_text_imm] at hhead
    cases h' with
    | register h' => exact absurd hhead.symm (head?_text_of_mem_registers h').1
    | mem base d => simp [toList_text_mem] at hhead
    | imm v' => rw [UInt32.toNat_inj.1 (Numeral.hex_inj.1 ht)]

end Operand

/-! ### The kinds of operands that are written -/

namespace Instruction

/-- The operands are of the kinds that are written with the operation, and the width is that of the
operation, if all its forms have one width. -/
def Written (i : Instruction) : Prop :=
  match i.op with
  | .mov | .add | .sub | .cmp =>
    i.left.Writable ∧ i.right.Plain ∧ (i.left.InMemory → ¬ i.right.InMemory)
  | .inc | .push | .pop => i.width = .dword ∧ i.left.Plain ∧ i.right = .absent
  | .interrupt => i.width = .byte ∧ i.left.Plain ∧ i.right = .absent
  | .call | .jmp | .jcc _ => i.width = .byte ∧ (∃ d, i.left = .rel d) ∧ i.right = .absent
  | .ret | .leave => i = ⟨i.op, .dword, .absent, .absent⟩
  | .input => i = ⟨.input, .byte, .reg8 .al, .dx⟩
  | .output => i = ⟨.output, .byte, .dx, .reg8 .al⟩

end Instruction

namespace InstructionSet

theorem plain_imm_operand (w : Width) (p : Parts) :
    (Slot.imm8.operand w p).Plain ∧ (Slot.imm8Signed.operand w p).Plain ∧
      (Slot.imm32.operand w p).Plain :=
  ⟨.imm _, .imm _, .imm _⟩

theorem writable_code (w : Width) (p : Parts) : (Slot.code.operand w p).Writable :=
  writable_ofCode w _

/-- Every row of the table is written as its operation demands. -/
theorem written_instruction {row : Row} (h : row ∈ table) (p : Parts) :
    (row.instruction p).Written := by
  have hall : ∀ row ∈ table, (row.instruction p).Written := by
    have hreg := fun w => writable_reg w p
    have hrm := fun w => writable_rm w p
    have hcode := fun w => writable_code w p
    have hregPlain := fun w => (hreg w).plain
    have hrmPlain := fun w => (hrm w).plain
    have hcodePlain := fun w => (hcode w).plain
    have himm := fun w => plain_imm_operand w p
    have hnot : ∀ w, ¬ (Slot.reg.operand w p).InMemory := fun w => not_inMemory_ofCode w _
    simp only [table, List.forall_mem_cons, Row.instruction, Instruction.Written, hreg, hrm, hcode,
      hregPlain, hrmPlain, hcodePlain, himm, hnot]
    simp [Slot.operand, Operand.Writable, Operand.InMemory]
  exact hall row h

theorem written_of_encodes {bytes : List UInt8} {i : Instruction} (h : Encodes bytes i) :
    i.Written := by
  obtain ⟨row, hrow, p, -, -, rfl⟩ := h
  exact written_instruction hrow p

end InstructionSet

/-! ### The parts of a text -/

/-- What is written behind the destination. -/
def Operand.behind : Operand → List Char
  | absent => []
  | o => ',' :: ' ' :: o.text.toList

theorem Operand.endsWord_behind (o : Operand) : EndsWord o.behind := by
  cases o <;> simp [behind, EndsWord, isSeparator]

theorem Operand.behind_ne_blank (o : Operand) (rest : List Char) : o.behind ≠ ' ' :: rest := by
  cases o <;> simp [behind]

theorem Operand.Plain.behind {o : Operand} (h : o.Plain) :
    o.behind = ',' :: ' ' :: o.text.toList := by
  cases o with
  | absent => exact absurd rfl h.ne_absent
  | _ => rfl

namespace Instruction

open InstructionSet (Suits)

/-- The width that is announced in the text, if one is. -/
def announced (i : Instruction) : Option Width :=
  match i.left, i.right with
  | .mem .., .imm _ => some i.width
  | .mem .., .absent => some i.width
  | _, _ => none

theorem toList_widthText (i : Instruction) :
    i.widthText.toList
      = match i.announced with
        | some w => w.keyword.toList ++ [' ']
        | none => [] := by
  unfold widthText announced
  split <;> simp [String.toList_append, *]

theorem toList_text_of_plain {i : Instruction} (h : i.left.Plain) :
    i.text.toList = i.op.mnemonic.toList
      ++ ' ' :: (i.widthText.toList ++ (i.left.text.toList ++ i.right.behind)) := by
  obtain ⟨op, w, left, right⟩ := i
  cases left with
  | rel d => exact absurd rfl (h.ne_rel d)
  | absent => exact absurd rfl h.ne_absent
  | _ => cases right <;> simp [text, String.toList_append, Operand.behind]

/-- A text begins with the mnemonic. -/
theorem exists_toList_text (i : Instruction) :
    ∃ rest, i.text.toList = i.op.mnemonic.toList ++ rest ∧ EndsWord rest := by
  obtain ⟨op, w, left, right⟩ := i
  have hblank : isSeparator ' ' = true := rfl
  cases left with
  | rel d =>
    refine ⟨' ' :: '$' :: (Numeral.signed d.toInt).toList, ?_, hblank⟩
    simp [text, String.toList_append]
  | absent => exact ⟨[], (List.append_nil _).symm, trivial⟩
  | _ =>
    cases right <;> simp [text, String.toList_append, List.append_assoc, EndsWord, hblank]

theorem op_eq_of_text_eq {i i' : Instruction} (h : i.text = i'.text) : i.op = i'.op := by
  obtain ⟨rest, hrest, hends⟩ := i.exists_toList_text
  obtain ⟨rest', hrest', hends'⟩ := i'.exists_toList_text
  rw [← String.toList_inj, hrest, hrest',
    append_inj i.op.isWord_mnemonic i'.op.isWord_mnemonic hends hends'] at h
  exact Op.mnemonic_inj.1 h.1

/-- A destination is told by what is written of it, and so is the width, if it is announced. -/
theorem announced_eq_of_text_eq {i i' : Instruction} (hl : i.left.Plain) (hl' : i'.left.Plain)
    (h : i.text = i'.text) :
    i.announced = i'.announced ∧ i.left = i'.left ∧ i.right.behind = i'.right.behind := by
  have hop := op_eq_of_text_eq h
  rw [← String.toList_inj, toList_text_of_plain hl, toList_text_of_plain hl', hop] at h
  -- behind the mnemonic and its blank both texts go on alike
  have hrest := (List.cons.inj (List.append_cancel_left h)).2
  rw [toList_widthText, toList_widthText] at hrest
  have hends := i.right.endsWord_behind
  have hends' := i'.right.endsWord_behind
  have hblank : ∀ rest, EndsWord (' ' :: rest) := fun rest => by simp [EndsWord, isSeparator]
  cases ha : i.announced with
  | none =>
    cases ha' : i'.announced with
    | none =>
      rw [ha, ha', List.nil_append, List.nil_append,
        append_inj hl.isWord_text hl'.isWord_text hends hends'] at hrest
      exact ⟨rfl, (Operand.text_inj hl hl').1 hrest.1, hrest.2⟩
    | some w =>
      -- no operand is followed by a blank
      rw [ha, ha', List.nil_append, List.append_assoc, List.singleton_append,
        append_inj hl.isWord_text w.isWord_keyword hends (hblank _)] at hrest
      exact absurd hrest.2 (i.right.behind_ne_blank _)
  | some w =>
    cases ha' : i'.announced with
    | none =>
      rw [ha, ha', List.nil_append, List.append_assoc, List.singleton_append,
        append_inj w.isWord_keyword hl'.isWord_text (hblank _) hends'] at hrest
      exact absurd hrest.2.symm (i'.right.behind_ne_blank _)
    | some w' =>
      -- two keywords, and then two operands are compared
      rw [ha, ha', List.append_assoc, List.append_assoc, List.singleton_append,
        List.singleton_append, append_inj w.isWord_keyword w'.isWord_keyword (hblank _) (hblank _),
        List.cons_inj_right, append_inj hl.isWord_text hl'.isWord_text hends hends'] at hrest
      obtain ⟨hw, hleft, hbehind⟩ := hrest
      exact ⟨congrArg some (Width.keyword_inj.1 hw), (Operand.text_inj hl hl').1 hleft, hbehind⟩

/-- With two operands the width is that of a register, or it is announced. -/
theorem width_eq_of_announced_eq {op op' : Op} {w w' : Width} {left right : Operand}
    (hl : left.Writable) (hr : right.Plain) (hmem : left.InMemory → ¬ right.InMemory)
    (hs : Suits w left ∧ Suits w right) (hs' : Suits w' left ∧ Suits w' right)
    (ha : announced ⟨op, w, left, right⟩ = announced ⟨op', w', left, right⟩) : w = w' := by
  cases left with
  | reg r => exact hs.1.trans hs'.1.symm
  | reg8 r => exact hs.1.trans hs'.1.symm
  | mem base d =>
    cases hr with
    | register h =>
      obtain h | h := List.mem_append.1 h <;> obtain ⟨r, -, rfl⟩ := List.mem_map.1 h
      · exact hs.2.trans hs'.2.symm
      · exact hs.2.trans hs'.2.symm
    | mem => exact absurd trivial (hmem trivial)
    | imm v => exact Option.some.inj ha
  | _ => cases hl

/-- **Instructions are told apart by their texts.** -/
theorem eq_of_text_eq {i i' : Instruction} (hi : i.Written) (hi' : i'.Written)
    (hs : Suits i.width i.left ∧ Suits i.width i.right)
    (hs' : Suits i'.width i'.left ∧ Suits i'.width i'.right) (h : i.text = i'.text) : i = i' := by
  have hop := op_eq_of_text_eq h
  obtain ⟨op, w, left, right⟩ := i
  obtain ⟨op', w', left', right'⟩ := i'
  obtain rfl : op = op' := hop
  cases op with
  | mov | add | sub | cmp =>
    -- two operands with a comma between, and a width that one of them tells
    obtain ⟨hl, hr, hmem⟩ := hi
    obtain ⟨hl', hr', -⟩ := hi'
    obtain ⟨ha, hleft, hbehind⟩ := announced_eq_of_text_eq hl.plain hl'.plain h
    rw [hr.behind, hr'.behind, List.cons_inj_right, List.cons_inj_right, String.toList_inj,
      Operand.text_inj hr hr'] at hbehind
    obtain rfl : left = left' := hleft
    obtain rfl : right = right' := hbehind
    obtain rfl : w = w' := width_eq_of_announced_eq hl hr hmem hs hs' ha
    rfl
  | inc | push | pop | interrupt =>
    -- one operand, where the operation tells the width
    obtain ⟨rfl, hl, rfl⟩ := hi
    obtain ⟨rfl, hl', rfl⟩ := hi'
    obtain ⟨-, rfl, -⟩ := announced_eq_of_text_eq hl hl' h
    rfl
  | call | jmp | jcc c =>
    -- a distance, which is written with its sign
    obtain ⟨rfl, ⟨d, rfl⟩, rfl⟩ := hi
    obtain ⟨rfl, ⟨d', rfl⟩, rfl⟩ := hi'
    rw [Int32.toInt_inj.1 (Numeral.signed_inj.1 ((String.append_right_inj _).1 h))]
  | ret | leave | input | output => rw [hi, hi']

end Instruction

/-! ### What is decoded -/

/-- **The text of an instruction is unambiguous.** Where decoded instructions have the same text,
they are the same instruction, so that the machine does the same with them. -/
theorem instructionAt_eq_of_text_eq {bytes bytes' : List UInt8} {start start' n n' : Nat}
    {i i' : Instruction} (h : Decoder.instructionAt bytes start = (.ok i, n))
    (h' : Decoder.instructionAt bytes' start' = (.ok i', n')) (ht : i.text = i'.text) :
    i = i' ∧ ∀ (m : Machine) (next : UInt32), m.plan i next = m.plan i' next := by
  have hi := (InstructionSet.encodes_of_instructionAt h).2
  have hi' := (InstructionSet.encodes_of_instructionAt h').2
  obtain rfl := Instruction.eq_of_text_eq (InstructionSet.written_of_encodes hi)
    (InstructionSet.written_of_encodes hi') (InstructionSet.suits_of_encodes hi)
    (InstructionSet.suits_of_encodes hi') ht
  exact ⟨rfl, fun m next => rfl⟩

/-- Both encodings of a copy from one register to another are written alike, and so they are one
instruction. -/
theorem instructionAt_eq_of_text_eq_copy :
    ∃ i i', Decoder.instructionAt [0x89, 0xd8] 0 = (.ok i, 2) ∧
      Decoder.instructionAt [0x8b, 0xc3] 0 = (.ok i', 2) ∧
      i.text = "mov eax, ebx" ∧ i'.text = "mov eax, ebx" ∧ i = i' ∧
      ∀ (m : Machine) (next : UInt32), m.plan i next = m.plan i' next := by
  have h : Decoder.instructionAt [0x89, 0xd8] 0
      = (.ok ⟨.mov, .dword, .reg .eax, .reg .ebx⟩, 2) := by rfl
  have h' : Decoder.instructionAt [0x8b, 0xc3] 0
      = (.ok ⟨.mov, .dword, .reg .eax, .reg .ebx⟩, 2) := by rfl
  have htext : Instruction.text ⟨.mov, .dword, .reg .eax, .reg .ebx⟩ = "mov eax, ebx" := by decide
  exact ⟨_, _, h, h', htext, htext, instructionAt_eq_of_text_eq h h' (htext.trans htext.symm)⟩

end Boot386
