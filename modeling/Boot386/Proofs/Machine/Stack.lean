import Mathlib.Algebra.Group.Nat.Defs
import Boot386.Proofs.Memory
import Boot386.Machine.Change

/-!
# The stack is last-in first-out

Words that are pushed one after the other are popped in reverse order, wherever the stack pointer
stands and also where it goes below zero and on at the upper end of the address space
(`last_in_first_out`).

`Machine.Stacked ws` says that the words `ws` can be read from the stack pointer on. A push puts its
word in front of them (`Stacked.push`) as long as all of them have room in the address space, and
then they are what is popped (`popAll_of_stacked`). A word that was popped can be pushed again,
which undoes the pop (`push_of_pop`).
-/

namespace Boot386.Machine

/-- Pushes words one after the other. -/
def pushAll (m : Machine) : List UInt32 → Except Fault Machine
  | [] => .ok m
  | v :: vs =>
    match m.push v with
    | .ok m' => m'.pushAll vs
    | .error f => .error f

/-- Pops so many words; the one that was on top comes first. -/
def popAll (m : Machine) : Nat → Except Fault (List UInt32 × Machine)
  | 0 => .ok ([], m)
  | n + 1 =>
    match m.pop with
    | .error f => .error f
    | .ok (v, m') =>
      match m'.popAll n with
      | .error f => .error f
      | .ok (vs, m'') => .ok (v :: vs, m'')

/-- The first `n` addresses below the stack pointer. Below zero they go on at the upper end of the
address space. -/
def below (m : Machine) (n : Nat) : Set Nat :=
  { a | ∃ i, 1 ≤ i ∧ i ≤ n ∧ a = (m.registers.get .esp - UInt32.ofNat i).toNat }

/-- The address of a word on a stack, with `i` words on top of it. -/
def wordAddress (esp : UInt32) (i : Nat) : UInt32 :=
  esp + 4 * UInt32.ofNat i

/-- The words stand on the stack, the first one on top. -/
def Stacked (m : Machine) (ws : List UInt32) : Prop :=
  ∀ (i : Nat) (h : i < ws.length),
    m.memory.read .dword (wordAddress (m.registers.get .esp) i) = .ok ws[i]

variable {m m' : Machine} {v : UInt32} {vs ws : List UInt32}

/-! ### One word -/

/-- What a push does: the word is stored below the top of the stack. -/
theorem push_eq_ok_iff :
    m.push v = .ok m' ↔ m.memory.Fits (m.registers.get .esp - 4) 4 ∧
      m' = { m with
        registers := m.registers.set .esp (m.registers.get .esp - 4)
        memory := m.memory.store (m.registers.get .esp - 4).toNat (Word.toBytes v) } := by
  by_cases h : m.memory.Fits (m.registers.get .esp - 4) 4
  · simp only [push, pushed, h, if_true, true_and, Except.ok.injEq]
    exact eq_comm
  · simp only [push, pushed, h, if_false, false_and, reduceCtorEq]

/-- What a pop does: the word at the top of the stack is read. -/
theorem pop_eq_ok_iff :
    m.pop = .ok (v, m') ↔ m.memory.read .dword (m.registers.get .esp) = .ok v ∧
      m' = { m with registers := m.registers.set .esp (m.registers.get .esp + 4) } := by
  cases h : m.memory.read .dword (m.registers.get .esp) with
  | ok w =>
    simp only [pop, popped, h, Except.ok.injEq, Prod.mk.injEq]
    exact and_congr_right fun _ => eq_comm
  | error f => simp only [pop, popped, h, reduceCtorEq, false_and]

/-! ### Words on the stack -/

@[simp] theorem wordAddress_zero (esp : UInt32) : wordAddress esp 0 = esp := by
  show esp + 4 * 0 = esp
  rw [UInt32.mul_zero, UInt32.add_zero]

theorem wordAddress_succ (esp : UInt32) (i : Nat) :
    wordAddress esp (i + 1) = wordAddress (esp + 4) i := by
  rw [wordAddress, wordAddress, UInt32.ofNat_add]
  grind

/-- Two words that are less than the address space apart do not reach into each other. -/
theorem toNat_wordAddress_apart (esp : UInt32) {i : Nat} (h : i + 1 < 2 ^ 30) :
    (wordAddress esp i).toNat + 4 ≤ (esp - 4).toNat ∨
      (esp - 4).toNat + 4 ≤ (wordAddress esp i).toNat := by
  have hesp := esp.toNat_lt
  have hfour : (4 : UInt32).toNat = 4 := rfl
  simp only [wordAddress, UInt32.toNat_sub, UInt32.toNat_add, UInt32.toNat_mul,
    UInt32.toNat_ofNat', hfour]
  omega

/-- The words on top are on the stack. -/
theorem Stacked.take (h : m.Stacked ws) (k : Nat) : m.Stacked (ws.take k) := by
  intro i hi
  rw [List.length_take] at hi
  rw [List.getElem_take]
  exact h i (Nat.lt_of_lt_of_le hi (Nat.min_le_right _ _))

/-- **Stacked words are popped.** -/
theorem popAll_of_stacked (h : m.Stacked ws) :
    m.popAll ws.length = .ok (ws, { m with
      registers := m.registers.set .esp (wordAddress (m.registers.get .esp) ws.length) }) := by
  induction ws generalizing m with
  | nil =>
    rw [List.length_nil, wordAddress_zero, Registers.set_get]
    rfl
  | cons v ws ih =>
    have htop := h 0 (Nat.zero_lt_succ _)
    rw [wordAddress_zero] at htop
    have hpop : m.pop = .ok (v, _) := pop_eq_ok_iff.2 ⟨htop, rfl⟩
    -- what was behind the top is on the stack of what is left
    have hrest : Stacked { m with
        registers := m.registers.set .esp (m.registers.get .esp + 4) } ws := by
      intro i hi
      rw [Registers.get_set, if_pos rfl, ← wordAddress_succ]
      exact h (i + 1) (Nat.succ_lt_succ hi)
    rw [List.length_cons, popAll, hpop]
    simp only [ih hrest, Registers.get_set, if_true, Registers.set_set, wordAddress_succ]

/-- **A push goes on top.** As long as the address space has room for all of them, the words that
are on the stack stay there. -/
theorem Stacked.push (h : m.Stacked ws) (hlen : ws.length < 2 ^ 30) (hpush : m.push v = .ok m') :
    m'.Stacked (v :: ws) := by
  obtain ⟨hfits, rfl⟩ := push_eq_ok_iff.1 hpush
  intro i hi
  rw [Registers.get_set, if_pos rfl, Memory.read_eq_ok_iff, Memory.size_store]
  cases i with
  | zero =>
    -- the word on top is the one that has been pushed
    rw [wordAddress_zero, Memory.operandAt_store_self hfits]
    exact ⟨hfits, rfl⟩
  | succ i =>
    -- the others are apart from it, because there is room for all of them
    have hi' : i < ws.length := Nat.lt_of_succ_lt_succ hi
    obtain ⟨hin, hword⟩ := Memory.read_eq_ok_iff.1 (h i hi')
    have hroom : i + 1 < 2 ^ 30 := by omega
    have hapart := toNat_wordAddress_apart (m.registers.get .esp) hroom
    have haddress : m.registers.get .esp - 4 + 4 = m.registers.get .esp := by grind
    rw [wordAddress_succ, haddress]
    refine ⟨hin, ?_⟩
    rw [Memory.operandAt_store_of_apart hapart, hword, List.getElem_cons_succ]

/-! ### What is below the top -/

theorem below_mono {j k : Nat} (h : j ≤ k) : ∀ a ∈ m.below j, a ∈ m.below k := by
  rintro a ⟨i, hone, hi, rfl⟩
  exact ⟨i, hone, hi.trans h, rfl⟩

/-- The four bytes that a push stores are below the top. -/
theorem mem_below_of_push {size c : Nat} (hsize : size ≤ 2 ^ 32)
    (hfits : (m.registers.get .esp - 4).toNat + 4 ≤ size)
    (hle : (m.registers.get .esp - 4).toNat ≤ c) (hlt : c < (m.registers.get .esp - 4).toNat + 4) :
    c ∈ m.below 4 := by
  refine ⟨(m.registers.get .esp - 4).toNat + 4 - c, by omega, by omega, ?_⟩
  have hesp := (m.registers.get .esp).toNat_lt
  have hfour : (4 : UInt32).toNat = 4 := rfl
  simp only [UInt32.toNat_sub, UInt32.toNat_ofNat', hfour] at hfits hle hlt ⊢
  omega

/-- A push changes nothing but the four bytes below the top, if no address is behind the end of the
address space. -/
theorem agreesOff_push (hsize : m.memory.size ≤ 2 ^ 32) (hpush : m.push v = .ok m') :
    Memory.AgreesOff (m.below 4) m.memory m'.memory := by
  obtain ⟨hfits, rfl⟩ := push_eq_ok_iff.1 hpush
  dsimp only
  exact Memory.agreesOff_store m.memory fun c hle hlt => mem_below_of_push hsize hfits hle hlt

/-! ### Many words -/

theorem pushAll_cons_eq_ok_iff :
    m.pushAll (v :: vs) = .ok m' ↔ ∃ s, m.push v = .ok s ∧ s.pushAll vs = .ok m' := by
  cases h : m.push v with
  | ok s => simp only [pushAll, h, Except.ok.injEq, exists_eq_left']
  | error f => simp only [pushAll, h, reduceCtorEq, false_and, exists_false]

/-- The words that are pushed first are pushed. -/
theorem exists_pushAll_of_append {us : List UInt32} (h : m.pushAll (us ++ ws) = .ok m') :
    ∃ s, m.pushAll us = .ok s := by
  induction us generalizing m with
  | nil => exact ⟨m, rfl⟩
  | cons u us ih =>
    obtain ⟨s, hpush, hrest⟩ := pushAll_cons_eq_ok_iff.1 h
    obtain ⟨t, ht⟩ := ih hrest
    exact ⟨t, pushAll_cons_eq_ok_iff.2 ⟨s, hpush, ht⟩⟩

/-- Pushing changes the stack pointer and the memory only. -/
theorem eq_of_pushAll (h : m.pushAll vs = .ok m') :
    m' = { m with registers := m'.registers, memory := m'.memory } ∧
      m'.registers
        = m.registers.set .esp (m.registers.get .esp - 4 * UInt32.ofNat vs.length) := by
  induction vs generalizing m with
  | nil =>
    obtain rfl := Except.ok.inj h
    refine ⟨rfl, ?_⟩
    show m.registers = m.registers.set .esp (m.registers.get .esp - 4 * 0)
    rw [UInt32.mul_zero, UInt32.sub_zero, Registers.set_get]
  | cons v vs ih =>
    obtain ⟨s, hfirst, hrest⟩ := pushAll_cons_eq_ok_iff.1 h
    obtain ⟨-, rfl⟩ := push_eq_ok_iff.1 hfirst
    obtain ⟨hsame, hregs⟩ := ih hrest
    -- one push takes four from the stack pointer, and the others follow
    have hesp : m.registers.get .esp - 4 - 4 * UInt32.ofNat vs.length
        = m.registers.get .esp - 4 * UInt32.ofNat (vs.length + 1) := by
      rw [UInt32.ofNat_add]
      grind
    rw [Registers.get_set, if_pos rfl, Registers.set_set, hesp] at hregs
    exact ⟨hsame, hregs⟩

/-- **Pushed words are stacked.** -/
theorem stacked_of_pushAll (hlen : ws.length + vs.length ≤ 2 ^ 30) (h : m.Stacked ws)
    (hpush : m.pushAll vs = .ok m') : m'.Stacked (vs.reverse ++ ws) := by
  -- `vs` is what is still to be pushed, and `ws` grows by what has been pushed
  induction vs generalizing m ws with
  | nil =>
    obtain rfl := Except.ok.inj hpush
    exact h
  | cons v vs ih =>
    obtain ⟨s, hfirst, hrest⟩ := pushAll_cons_eq_ok_iff.1 hpush
    rw [List.length_cons] at hlen
    rw [List.reverse_cons, List.append_assoc, List.singleton_append]
    refine ih ?_ (h.push (by omega) hfirst) hrest
    rw [List.length_cons]
    omega

/-- What is below the top after a push was below it before. -/
theorem below_of_push (hpush : m.push v = .ok m') {n : Nat} :
    ∀ a ∈ m'.below n, a ∈ m.below (n + 4) := by
  obtain ⟨-, rfl⟩ := push_eq_ok_iff.1 hpush
  rintro a ⟨i, hone, hi, rfl⟩
  refine ⟨i + 4, by omega, by omega, ?_⟩
  have hesp : m.registers.get .esp - 4 - UInt32.ofNat i
      = m.registers.get .esp - UInt32.ofNat (i + 4) := by
    rw [UInt32.ofNat_add]
    grind
  rw [Registers.get_set, if_pos rfl, hesp]

/-- Pushing changes nothing but what is below the top. -/
theorem agreesOff_pushAll (hsize : m.memory.size ≤ 2 ^ 32) (hpush : m.pushAll vs = .ok m') :
    Memory.AgreesOff (m.below (4 * vs.length)) m.memory m'.memory := by
  induction vs generalizing m with
  | nil =>
    obtain rfl := Except.ok.inj hpush
    exact Memory.AgreesOff.refl _ _
  | cons v vs ih =>
    obtain ⟨s, hfirst, hrest⟩ := pushAll_cons_eq_ok_iff.1 hpush
    have hone := agreesOff_push hsize hfirst
    have hmany := ih (hone.size ▸ hsize) hrest
    -- the later pushes start from a lower top
    refine (hone.mono (below_mono ?_)).trans (hmany.mono (below_of_push hfirst))
    rw [List.length_cons]
    omega

/-! ### There and back -/

/-- A word that was popped can be pushed again, and then everything is as before. -/
theorem push_of_pop (h : m.pop = .ok (v, m')) : m'.push v = .ok m := by
  obtain ⟨hread, rfl⟩ := pop_eq_ok_iff.1 h
  obtain ⟨hin, rfl⟩ := Memory.read_eq_ok_iff.1 hread
  have hesp : m.registers.get .esp + 4 - 4 = m.registers.get .esp := by grind
  refine push_eq_ok_iff.2 ?_
  rw [Registers.get_set, if_pos rfl, hesp, Registers.set_set, Registers.set_get,
    Memory.store_operandAt]
  exact ⟨hin, rfl⟩

/-- **Last in, first out.** Let the memory be no longer than the address space, and let words be
pushed that are no more than have room in it. Then as many words can be popped, which are those that
were pushed, the last one first, and everything but the memory is as before. Popping fewer of them
gives the first of these, and it changes the stack pointer only. After any number of the pushes the
memory has changed only in the bytes below the stack pointer, four for each word, where addresses
wrap.

Conversely, if a word can be popped, it can be pushed again, and everything is as before. -/
theorem last_in_first_out :
    (∀ (m m' : Machine) (vs : List UInt32), m.memory.size ≤ 2 ^ 32 → vs.length ≤ 2 ^ 30 →
      m.pushAll vs = .ok m' →
      m'.popAll vs.length = .ok (vs.reverse, { m with memory := m'.memory }) ∧
      (∀ k ≤ vs.length, m'.popAll k = .ok (vs.reverse.take k, { m' with
        registers := m'.registers.set .esp (m'.registers.get .esp + 4 * UInt32.ofNat k) })) ∧
      ∀ us, us <+: vs → ∃ s, m.pushAll us = .ok s ∧
        Memory.AgreesOff (m.below (4 * us.length)) m.memory s.memory) ∧
    ∀ (s s' : Machine) (v : UInt32), s.pop = .ok (v, s') → s'.push v = .ok s := by
  refine ⟨fun m m' vs hsize hlen hpush => ?_, fun s s' v => push_of_pop⟩
  -- the words that have been pushed stand on the stack, the last one on top
  have hstacked : m'.Stacked vs.reverse := by
    have hempty : m.Stacked [] := nofun
    have h := stacked_of_pushAll (by simpa using hlen) hempty hpush
    rwa [List.append_nil] at h
  have hpops : ∀ k ≤ vs.length, m'.popAll k = .ok (vs.reverse.take k, { m' with
      registers := m'.registers.set .esp (m'.registers.get .esp + 4 * UInt32.ofNat k) }) := by
    intro k hk
    have h := popAll_of_stacked (hstacked.take k)
    rwa [List.length_take, List.length_reverse, Nat.min_eq_left hk] at h
  refine ⟨?_, hpops, fun us hus => ?_⟩
  · -- popping all of them takes the stack pointer back to where it was
    obtain ⟨hsame, hregs⟩ := eq_of_pushAll hpush
    have hesp : m.registers.get .esp - 4 * UInt32.ofNat vs.length + 4 * UInt32.ofNat vs.length
        = m.registers.get .esp := by grind
    rw [hpops _ le_rfl, List.take_of_length_le (List.length_reverse ..).le, hregs,
      Registers.get_set, if_pos rfl, hesp, Registers.set_set, Registers.set_get]
    exact congrArg (fun t : Machine =>
      Except.ok (vs.reverse, { t with registers := m.registers })) hsame
  · -- the first pushes have been carried out on the way
    obtain ⟨ws, rfl⟩ := hus
    obtain ⟨s, hs⟩ := exists_pushAll_of_append hpush
    exact ⟨s, hs, agreesOff_pushAll hsize hs⟩

/-- Three words at addresses that are not aligned, the last one near the lower end of the memory,
and a word that is popped at the upper end. -/
theorem last_in_first_out_unaligned :
    let m : Machine := { boot ⟨16, 0, true⟩ {} with registers := { esp := 13 } }
    let s : Machine :=
      { boot ⟨5, 1, true⟩ {} with memory := (Memory.ofSize 5).store 1 [1, 2, 3, 4] }
    (∃ m', m.pushAll [7, 8, 9] = .ok m' ∧
      m'.popAll 3 = .ok ([9, 8, 7], { m with memory := m'.memory }) ∧
      ∃ t, m.pushAll [7, 8] = .ok t ∧ Memory.AgreesOff (m.below 8) m.memory t.memory) ∧
    ∃ s', s.pop = .ok (0x04030201, s') ∧ s'.push 0x04030201 = .ok s := by
  intro m s
  constructor
  · -- there is room for three words
    have hroom : (m.pushAll [7, 8, 9]).isOk = true := by decide +kernel
    cases hpush : m.pushAll [7, 8, 9] with
    | error f =>
      rw [hpush] at hroom
      cases hroom
    | ok m' =>
      obtain ⟨hpops, -, hbelow⟩ :=
        last_in_first_out.1 m m' [7, 8, 9] (by decide) (by decide) hpush
      exact ⟨m', rfl, hpops, hbelow [7, 8] ⟨[9], rfl⟩⟩
  · -- the four bytes at the upper end are a word
    have hpop : s.pop = .ok (0x04030201, _) := pop_eq_ok_iff.2 ⟨by decide +kernel, rfl⟩
    exact ⟨_, hpop, last_in_first_out.2 _ _ _ hpop⟩

end Boot386.Machine
