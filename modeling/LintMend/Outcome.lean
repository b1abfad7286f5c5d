/-!
# Operations that are given up

Some operations can be given up half-way: a checker that meets what it cannot handle, a sum that
does not fit a machine word. What is left of them is a message.
-/

namespace LintMend

/-- Why an operation was given up. -/
structure Abort where
  message : String
deriving DecidableEq, Repr

/-- A result, unless the operation was given up. -/
abbrev Outcome := Except Abort

/-- Gives an operation up. -/
def abort {α : Type} (message : String) : Outcome α := .error ⟨message⟩

/-- A sequence of two operations gives a result only if both do. -/
theorem Outcome.exists_of_bind_eq_ok {α β : Type} {x : Outcome α} {f : α → Outcome β} {b : β}
    (h : x >>= f = .ok b) : ∃ a, x = .ok a ∧ f a = .ok b := by
  cases x with
  | error e => simp [bind, Except.bind] at h
  | ok a => exact ⟨a, rfl, h⟩

/-- Where every member of a list has to give a result, each result comes from a member. -/
theorem exists_of_mem_mapM {α β : Type} {f : α → Option β} {as : List α} {bs : List β}
    (h : as.mapM f = some bs) {b : β} (hb : b ∈ bs) :
    ∃ (k : Nat) (a : α), as[k]? = some a ∧ f a = some b := by
  induction as generalizing bs with
  | nil =>
    cases h
    simp at hb
  | cons a as ih =>
    rw [List.mapM_cons] at h
    rcases Option.bind_eq_some_iff.1 h with ⟨first, hfirst, h⟩
    rcases Option.bind_eq_some_iff.1 h with ⟨rest, hrest, h⟩
    cases h
    rcases List.mem_cons.1 hb with rfl | hb
    · exact ⟨0, a, rfl, hfirst⟩
    · rcases ih hrest hb with ⟨k, a', ha', hresult⟩
      exact ⟨k + 1, a', ha', hresult⟩

/-- Words of the machine are below this number. -/
def wordLimit : Nat := 18446744073709551616

/-- Signed words are below this number, and not below its opposite. -/
def signedLimit : Nat := 9223372036854775808

/-- A sum that has to fit a word. -/
def addWord (a b : Nat) : Outcome Nat :=
  if a + b < wordLimit then .ok (a + b) else abort "attempt to add with overflow"

theorem addWord_eq_ok {a b : Nat} (h : a + b < wordLimit) : addWord a b = .ok (a + b) := by
  simp [addWord, h]

end LintMend
