import Mathlib.Data.List.Basic
import Boot386.Ascii
import Boot386.Machine.Dump
import Boot386.Proofs.Numeral

/-!
# The lines of the register dump

The dump is nine lines, one for each register and one for the instruction pointer
(`dump_eq_join`). A line break stands behind each line, and nowhere else.

The dump can be read back. `Machine.readDump?` is a reader that knows how a line is made up and
nothing about machines; from the bytes of a dump it recovers all eight registers and the instruction
pointer (`dump_read_back`).
-/

namespace Boot386

namespace Ascii

/-- The characters with some codes. -/
def chars (bytes : List UInt8) : List Char :=
  bytes.map fun b => Char.ofNat b.toNat

/-- A text in ASCII is read back from its codes. -/
theorem chars_bytes {s : String} (h : ∀ c ∈ s.toList, c.toNat < 128) :
    chars (bytes s) = s.toList := by
  have hcode : ∀ c ∈ s.toList, Char.ofNat (UInt8.ofNat c.toNat).toNat = c := by
    intro c hc
    have hlt := h c hc
    rw [UInt8.toNat_ofNat', Nat.mod_eq_of_lt (by omega), Char.ofNat_toNat]
  rw [chars, bytes, List.map_map]
  exact (List.map_congr_left hcode).trans (List.map_id' _)

end Ascii

theorem Reg.newline_notMem_label (r : Reg) : '\n' ∉ r.label.toList := by
  cases r <;> decide

namespace Machine

/-- A line of the dump, without its line break. -/
def shownWord (label : String) (w : UInt32) : String :=
  label ++ " = " ++ Numeral.paddedHex 8 w.toNat

/-- The lines of the dump, in their order and without their line breaks. -/
def dumpLines (m : Machine) : List String :=
  (Reg.all.map fun r => shownWord r.label (m.registers.get r)) ++ [shownWord "EIP" m.eip]

/-- A line consists of its name, an equals sign between blanks, and digits. -/
theorem mem_shownWord {label : String} {w : UInt32} {c : Char}
    (h : c ∈ (shownWord label w).toList) :
    c ∈ label.toList ∨ c ∈ " = ".toList ++ Numeral.digits := by
  rw [shownWord, String.toList_append, String.toList_append, List.append_assoc,
    List.mem_append, List.mem_append] at h
  rw [List.mem_append]
  exact h.imp_right (Or.imp_right Numeral.mem_digits_of_mem_paddedHex)

/-- A line has no line break inside. -/
theorem newline_notMem_shownWord {label : String} (h : '\n' ∉ label.toList) (w : UInt32) :
    '\n' ∉ (shownWord label w).toList := by
  intro hc
  obtain hlabel | hother := mem_shownWord hc
  · exact h hlabel
  · revert hother
    decide

/-- **The dump is made of lines.** There are nine of them. -/
theorem dump_eq_join (m : Machine) :
    m.dump = String.join (m.dumpLines.map (· ++ "\n")) ∧ m.dumpLines.length = 9 ∧
      ∀ line ∈ m.dumpLines, '\n' ∉ line.toList := by
  refine ⟨?_, rfl, fun line hline => ?_⟩
  · rw [dumpLines, List.map_append, List.map_map, String.join_append]
    rfl
  · rw [dumpLines, List.mem_append, List.mem_map, List.mem_singleton] at hline
    obtain ⟨r, -, rfl⟩ | rfl := hline
    · exact newline_notMem_shownWord r.newline_notMem_label _
    · exact newline_notMem_shownWord (by decide) _

/-! ### Reading a dump -/

/-- The word that eight hexadecimal digits stand for. -/
def readWord? (cs : List Char) : Option UInt32 :=
  if cs.length = 8 ∧ cs.all (fun c => c ∈ Numeral.digits) = true then
    some (UInt32.ofNat (Numeral.value 16 cs))
  else none

/-- What stands on a line: a name of three letters and a word, with an equals sign between. -/
def readLine? : List Char → Option (String × UInt32)
  | a :: b :: c :: ' ' :: '=' :: ' ' :: cs =>
    (readWord? cs).map fun w => (String.ofList [a, b, c], w)
  | _ => none

/-- The lines of a text, which has to end with a line break. -/
def linesOf? (cs : List Char) : Option (List (List Char)) :=
  let pieces := cs.splitOn '\n'
  if pieces.getLast? = some [] then some pieces.dropLast else none

/-- The names and the words on the lines of a text in ASCII. -/
def readDump? (bytes : List UInt8) : Option (List (String × UInt32)) :=
  (linesOf? (Ascii.chars bytes)).bind fun lines => lines.mapM readLine?

/-- **Words are read back**, with all of their leading zeros. -/
theorem readWord?_paddedHex (w : UInt32) :
    readWord? (Numeral.paddedHex 8 w.toNat).toList = some w := by
  have hlen := Numeral.length_paddedHex 8 (by decide) w.toNat_lt
  have hdigits : (Numeral.paddedHex 8 w.toNat).toList.all (fun c => c ∈ Numeral.digits) = true :=
    List.all_eq_true.2 fun c hc => decide_eq_true (Numeral.mem_digits_of_mem_paddedHex hc)
  rw [readWord?, if_pos ⟨hlen, hdigits⟩, Numeral.value_paddedHex, UInt32.ofNat_toNat]

/-- **Lines are read back.** -/
theorem readLine?_shownWord {label : String} (h : label.toList.length = 3) (w : UInt32) :
    readLine? (shownWord label w).toList = some (label, w) := by
  obtain ⟨a, b, c, hlabel⟩ := List.length_eq_three.1 h
  have hname : String.ofList [a, b, c] = label := by
    rw [← hlabel, String.ofList_toList]
  rw [shownWord, String.toList_append, String.toList_append, hlabel]
  simp only [String.reduceToList, List.cons_append, List.nil_append, readLine?,
    readWord?_paddedHex, hname, Option.map_some]

/-- Names and words are read back, line by line. -/
theorem mapM_readLine? {shown : List (String × UInt32)}
    (h : ∀ p ∈ shown, p.1.toList.length = 3) :
    (shown.map fun p => (shownWord p.1 p.2).toList).mapM readLine? = some shown := by
  induction shown with
  | nil => rfl
  | cons p shown ih =>
    rw [List.map_cons, List.mapM_cons, readLine?_shownWord (h p List.mem_cons_self),
      ih fun q hq => h q (List.mem_cons_of_mem _ hq)]
    rfl

/-- Line breaks behind all lines stand between the lines and an empty one. -/
theorem flatMap_newline (lines : List (List Char)) :
    lines.flatMap (· ++ ['\n']) = ['\n'].intercalate (lines ++ [[]]) := by
  induction lines with
  | nil => rfl
  | cons line lines ih =>
    rw [List.flatMap_cons, ih, List.cons_append, List.intercalate_cons_of_ne_nil (by simp)]

/-- Lines that are put together can be taken apart again. -/
theorem linesOf?_flatMap {lines : List (List Char)} (h : ∀ line ∈ lines, '\n' ∉ line) :
    linesOf? (lines.flatMap (· ++ ['\n'])) = some lines := by
  have hno : ∀ line ∈ lines ++ [[]], '\n' ∉ line := by
    intro line hline
    obtain hline | hline := List.mem_append.1 hline
    · exact h line hline
    · rw [List.mem_singleton.1 hline]
      exact List.not_mem_nil
  rw [linesOf?, flatMap_newline, List.splitOn_intercalate '\n' hno (by simp)]
  simp

/-- The names and the words of the dump, in their order. -/
def shownWords (m : Machine) : List (String × UInt32) :=
  (Reg.all.map fun r => (r.label, m.registers.get r)) ++ [("EIP", m.eip)]

theorem dumpLines_eq (m : Machine) :
    m.dumpLines = m.shownWords.map fun p => shownWord p.1 p.2 := rfl

/-- There is nothing in the dump but ASCII. -/
theorem toNat_lt_of_mem_dump {m : Machine} {c : Char} (h : c ∈ m.dump.toList) :
    c.toNat < 128 := by
  have hlabels : ∀ p ∈ m.shownWords, ∀ c ∈ p.1.toList, c.toNat < 128 := by
    simp [shownWords, Reg.all, Reg.label]
  have hothers : (" = ".toList ++ Numeral.digits).all (fun c => c.toNat < 128) = true := by
    decide
  -- a character is one of a line, or the line break behind it
  rw [m.dump_eq_join.1, String.toList_join, List.mem_flatMap] at h
  obtain ⟨text, htext, hc⟩ := h
  obtain ⟨line, hline, rfl⟩ := List.mem_map.1 htext
  rw [dumpLines_eq] at hline
  obtain ⟨p, hp, rfl⟩ := List.mem_map.1 hline
  rw [String.toList_append, List.mem_append] at hc
  obtain hc | hc := hc
  · refine (mem_shownWord hc).elim (hlabels p hp c) fun hc => ?_
    exact of_decide_eq_true (List.all_eq_true.1 hothers c hc)
  · obtain rfl := List.mem_singleton.1 hc
    decide

/-- **The dump is read back.** -/
theorem readDump?_dump (m : Machine) : readDump? (Ascii.bytes m.dump) = some m.shownWords := by
  obtain ⟨hjoin, -, hno⟩ := m.dump_eq_join
  -- the dump as lines of characters
  have hchars : m.dump.toList = (m.dumpLines.map String.toList).flatMap (· ++ ['\n']) := by
    rw [hjoin, String.toList_join, List.flatMap_map, List.flatMap_map]
    simp only [String.toList_append]
    rfl
  have hlines : ∀ line ∈ m.dumpLines.map String.toList, '\n' ∉ line := by
    intro line hline
    obtain ⟨s, hs, rfl⟩ := List.mem_map.1 hline
    exact hno s hs
  -- every name has three letters
  have hnames : ∀ p ∈ m.shownWords, p.1.toList.length = 3 := by
    simp [shownWords, Reg.all, Reg.label]
  rw [readDump?, Ascii.chars_bytes fun c hc => toNat_lt_of_mem_dump hc, hchars,
    linesOf?_flatMap hlines, Option.bind_some, dumpLines_eq, List.map_map]
  exact mapM_readLine? hnames

theorem shownWords_inj {m m' : Machine} :
    m.shownWords = m'.shownWords
      ↔ (∀ r, m.registers.get r = m'.registers.get r) ∧ m.eip = m'.eip := by
  refine ⟨fun h => ?_, fun ⟨hr, heip⟩ => by simp only [shownWords, hr, heip]⟩
  simp only [shownWords, Reg.all, List.map_cons, List.map_nil, List.cons_append, List.nil_append,
    List.cons.injEq, Prod.mk.injEq, true_and, and_true] at h
  obtain ⟨h₀, h₁, h₂, h₃, h₄, h₅, h₆, h₇, heip⟩ := h
  exact ⟨fun r => by cases r <;> assumption, heip⟩

theorem dump_congr {m m' : Machine} (h : m.shownWords = m'.shownWords) : m.dump = m'.dump := by
  rw [m.dump_eq_join.1, m'.dump_eq_join.1, dumpLines_eq, dumpLines_eq, h]

theorem eq_of_bytes_dump_eq {m m' : Machine} (h : Ascii.bytes m.dump = Ascii.bytes m'.dump) :
    m.shownWords = m'.shownWords := by
  have hread := m.readDump?_dump
  rw [h, readDump?_dump] at hread
  exact (Option.some.inj hread).symm

/-- **The register dump can be read back.** It is nine lines, each of which ends with a line break.
What arrives where it is printed tells the registers in the order of their encoding and then the
instruction pointer, so that two machines have the same dump exactly if these are the same. -/
theorem dump_read_back (m : Machine) :
    (m.dump = String.join (m.dumpLines.map (· ++ "\n")) ∧ m.dumpLines.length = 9 ∧
      ∀ line ∈ m.dumpLines, '\n' ∉ line.toList) ∧
    readDump? (Ascii.bytes m.dump) = some
      [("EAX", m.registers.get .eax), ("ECX", m.registers.get .ecx),
        ("EDX", m.registers.get .edx), ("EBX", m.registers.get .ebx),
        ("ESP", m.registers.get .esp), ("EBP", m.registers.get .ebp),
        ("ESI", m.registers.get .esi), ("EDI", m.registers.get .edi), ("EIP", m.eip)] ∧
    ∀ m' : Machine,
      (m.dump = m'.dump ↔ (∀ r, m.registers.get r = m'.registers.get r) ∧ m.eip = m'.eip) ∧
      (Ascii.bytes m.dump = Ascii.bytes m'.dump ↔ m.dump = m'.dump) := by
  refine ⟨m.dump_eq_join, m.readDump?_dump, fun m' => ⟨?_, ?_⟩⟩
  · rw [← shownWords_inj]
    exact ⟨fun h => eq_of_bytes_dump_eq (congrArg Ascii.bytes h), dump_congr⟩
  · exact ⟨fun h => dump_congr (eq_of_bytes_dump_eq h), congrArg Ascii.bytes⟩

end Machine

end Boot386
