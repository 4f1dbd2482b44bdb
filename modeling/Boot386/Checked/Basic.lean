import Boot386.Word

/-!
# Checked tasks

A `Task` works on a state step by step, and nothing in it is total by convention: an index is
compared with the length, a sum of sizes with what 64 bits can hold, and operands with the kinds
that an operation has a use for. Where such a check fails the task ends in a `Crash`. That is
apart from the errors that a task reports on purpose, and in both cases the state stays as it was
left at that point.

A check that does not fail is no effect at all (`require_of`, `addSize_of_lt`,
`element_of_getElem?`, `copy_of_length`), so a task whose checks all hold can be read without
them.
-/

namespace Boot386.Checked

/-- Why a check failed. -/
inductive Crash where
  /-- An operation meets operands that it has no use for. -/
  | malformed
  | index (i length : Nat)
  | range (start stop length : Nat)
  /-- Bytes are copied to a place of another length. -/
  | lengths (place source : Nat)
  /-- A word is shifted by all of its bits or more. -/
  | shift (bits : Nat)
  /-- A size or a count has no room in 64 bits. -/
  | overflow
  deriving DecidableEq, Repr, Inhabited

/-- Why a task ends early. -/
inductive Stop (ε : Type) where
  /-- It reports an error. -/
  | error (e : ε)
  | crash (c : Crash)
  deriving DecidableEq, Repr, Inhabited

/-- Steps on a state `σ` that may end in an error `ε` or in a crash. -/
abbrev Task (ε σ α : Type) := EStateM (Stop ε) σ α

variable {ε σ α : Type}

def fail (e : ε) : Task ε σ α := throw (.error e)

def crash (c : Crash) : Task ε σ α := throw (.crash c)

/-! ### Checks -/

/-- Crashes unless a condition holds. -/
def require (p : Prop) [Decidable p] (c : Crash) : Task ε σ Unit :=
  if p then pure () else crash c

/-- The sum of two sizes, which has to fit in 64 bits. -/
def addSize (a b : Nat) : Task ε σ Nat := do
  require (a + b < UInt64.size) .overflow
  return a + b

/-- The element at an index, which has to be inside. -/
def element (xs : List α) (i : Nat) : Task ε σ α :=
  match xs[i]? with
  | some a => pure a
  | none => crash (.index i xs.length)

/-- Bytes that have to fill a place of `n` bytes. -/
def copy (n : Nat) (bytes : List UInt8) : Task ε σ (List UInt8) := do
  require (bytes.length = n) (.lengths n bytes.length)
  return bytes

theorem require_of {p : Prop} [Decidable p] (h : p) (c : Crash) :
    (require p c : Task ε σ Unit) = pure () := if_pos h

theorem addSize_of_lt {a b : Nat} (h : a + b < UInt64.size) :
    (addSize a b : Task ε σ Nat) = pure (a + b) := by
  rw [addSize, require_of h, pure_bind]

theorem element_of_getElem? {xs : List α} {i : Nat} {a : α} (h : xs[i]? = some a) :
    (element xs i : Task ε σ α) = pure a := by
  rw [element, h]

theorem copy_of_length {n : Nat} {bytes : List UInt8} (h : bytes.length = n) :
    (copy n bytes : Task ε σ (List UInt8)) = pure bytes := by
  rw [copy, require_of h, pure_bind]

/-! ### What the elementary tasks do -/

theorem pure_apply (a : α) (s : σ) : (pure a : Task ε σ α) s = .ok a s := rfl

theorem get_apply (s : σ) : (get : Task ε σ σ) s = .ok s s := rfl

theorem set_apply (s s' : σ) : (set s' : Task ε σ PUnit) s = .ok () s' := rfl

theorem fail_apply (e : ε) (s : σ) : (fail e : Task ε σ α) s = .error (.error e) s := rfl

end Boot386.Checked
