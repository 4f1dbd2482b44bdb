import Mathlib.Data.List.Infix
import Boot386.Console

/-!
# The reasons of a host

When the console fails, the reason is one that the host has given: it stands in the script of the
host, or it is the defect that the host has behind the end of its script. `Host.Gives` lists the
places. Using the console takes from the script and never adds to it (`gives_of_gives_send`), so
that this holds of the last of several bytes as of the first (`gives_of_sendAll_error`).
-/

namespace Boot386

/-- The reasons for which an operation of the host can fail. -/
inductive Host.Gives (h : Host) : String → Prop where
  | read {f : Failure} : .failure f ∈ h.reads → h.Gives f.reason
  | write {f : Failure} : .failure f ∈ h.writes → h.Gives f.reason
  /-- The host takes no byte and does not say why. -/
  | refused : .refused ∈ h.writes → h.Gives "failed to write whole buffer"
  | flush {f : Failure} : .failure f ∈ h.flushes → h.Gives f.reason
  /-- The script is at its end. -/
  | defect {reason : String} : h.defect = some reason → h.Gives reason

namespace Host

/-! ### Single operations -/

/-- A failed read is a failure of the script. -/
theorem failure_of_takeRead {events : List ReadEvent} {reason : String}
    (h : (takeRead events).1 = .error reason) : ∃ f, .failure f ∈ events ∧ f.reason = reason := by
  fun_induction takeRead events with
  | case5 f events hkind ih =>
    -- after an interruption the next read is asked for
    obtain ⟨f', hmem, hreason⟩ := ih h
    exact ⟨f', List.mem_cons_of_mem _ hmem, hreason⟩
  | case7 f events hkind => exact ⟨f, List.mem_cons_self, Except.error.inj h⟩
  | _ => cases h

theorem eq_of_unscripted {defect : Option String} {reason : String}
    (h : unscripted defect = .error reason) : defect = some reason := by
  cases defect <;> cases h
  rfl

/-- What is left of the writes is an end of them. -/
theorem takeWrite_suffix (defect : Option String) (events : List WriteEvent) :
    (takeWrite defect events).2 <:+ events := by
  fun_induction takeWrite defect events with
  | case1 => exact List.suffix_refl _
  | case4 f events hkind ih => exact ih.trans (List.suffix_cons _ _)
  | _ => exact List.suffix_cons _ _

theorem takeFlush_suffix (defect : Option String) (events : List FlushEvent) :
    (takeFlush defect events).2 <:+ events := by
  unfold takeFlush
  split
  · exact List.suffix_refl _
  · exact List.suffix_cons _ _
  · exact List.suffix_cons _ _

/-- A failed write is one of the script, or the script is at its end. -/
theorem gives_of_takeWrite {h : Host} {events : List WriteEvent} {reason : String}
    (hevents : events ⊆ h.writes) (hfail : (takeWrite h.defect events).1 = .error reason) :
    h.Gives reason := by
  fun_induction takeWrite h.defect events with
  | case1 => exact .defect (eq_of_unscripted hfail)
  | case2 => cases hfail
  | case3 events =>
    obtain rfl := Except.error.inj hfail
    exact .refused (hevents List.mem_cons_self)
  | case4 f events hkind ih =>
    -- after an interruption the byte is offered again
    exact ih (List.subset_of_cons_subset hevents) hfail
  | case5 f events hkind =>
    obtain rfl := Except.error.inj hfail
    exact .write (hevents List.mem_cons_self)

theorem gives_of_takeFlush {h : Host} {reason : String}
    (hfail : (takeFlush h.defect h.flushes).1 = .error reason) : h.Gives reason := by
  cases hevents : h.flushes with
  | nil =>
    rw [hevents] at hfail
    exact .defect (eq_of_unscripted hfail)
  | cons e events =>
    rw [hevents] at hfail
    cases e with
    | done => cases hfail
    | failure f =>
      obtain rfl := Except.error.inj hfail
      exact .flush (hevents ▸ List.mem_cons_self)

/-- A host with a shorter script gives no other reasons. -/
theorem Gives.mono {h h' : Host} {reason : String} (hg : h'.Gives reason)
    (hreads : h'.reads ⊆ h.reads) (hwrites : h'.writes ⊆ h.writes)
    (hflushes : h'.flushes ⊆ h.flushes) (hdefect : h'.defect = h.defect) : h.Gives reason := by
  cases hg with
  | read hf => exact .read (hreads hf)
  | write hf => exact .write (hwrites hf)
  | refused hf => exact .refused (hwrites hf)
  | flush hf => exact .flush (hflushes hf)
  | defect hd => exact .defect (hdefect ▸ hd)

end Host

namespace Console

variable {c : Console} {reason : String}

/-! ### The device -/

theorem gives_of_receive_error (h : c.receive.1 = .error reason) : c.host.Gives reason := by
  have hread : (Host.takeRead c.host.reads).1 = .error reason := h
  obtain ⟨f, hmem, rfl⟩ := Host.failure_of_takeRead hread
  exact .read hmem

theorem gives_of_send_error {b : UInt8} (h : (c.send b).1 = .error reason) :
    c.host.Gives reason := by
  unfold send at h
  split at h
  · next reason' events hwrite =>
    obtain rfl := Except.error.inj h
    exact Host.gives_of_takeWrite (List.Subset.refl _) (congrArg Prod.fst hwrite)
  · exact Host.gives_of_takeFlush h

/-- Sending a byte takes from the writes and the flushes of the script, and from nothing else. -/
theorem host_send (c : Console) (b : UInt8) :
    (c.send b).2.host.reads = c.host.reads ∧
      (c.send b).2.host.writes <:+ c.host.writes ∧
      (c.send b).2.host.flushes <:+ c.host.flushes ∧
      (c.send b).2.host.defect = c.host.defect := by
  have hwrites := Host.takeWrite_suffix c.host.defect c.host.writes
  have hflushes := Host.takeFlush_suffix c.host.defect c.host.flushes
  unfold send
  split
  · next reason events hwrite =>
    rw [hwrite] at hwrites
    exact ⟨rfl, hwrites, List.suffix_refl _, rfl⟩
  · next events hwrite =>
    rw [hwrite] at hwrites
    exact ⟨rfl, hwrites, hflushes, rfl⟩

theorem gives_of_gives_send {b : UInt8} (h : (c.send b).2.host.Gives reason) :
    c.host.Gives reason := by
  obtain ⟨hreads, hwrites, hflushes, hdefect⟩ := c.host_send b
  exact h.mono (by rw [hreads]; exact List.Subset.refl _) hwrites.subset hflushes.subset hdefect

/-- **The words of the host.** When sending bytes fails, the reason is one of the host's. -/
theorem gives_of_sendAll_error {bytes : List UInt8} (h : (c.sendAll bytes).1 = .error reason) :
    c.host.Gives reason := by
  induction bytes generalizing c with
  | nil => cases h
  | cons b bs ih =>
    unfold sendAll at h
    split at h
    · next reason' c' hsend =>
      obtain rfl := Except.error.inj h
      exact gives_of_send_error (congrArg Prod.fst hsend)
    · next c' hsend =>
      obtain rfl : (c.send b).2 = c' := congrArg Prod.snd hsend
      exact gives_of_gives_send (ih h)

/-- Sending one byte is sending it. -/
theorem sendAll_singleton (c : Console) (b : UInt8) : c.sendAll [b] = c.send b := by
  unfold sendAll
  split
  · next h => exact h.symm
  · next h => exact h.symm

end Console

end Boot386
