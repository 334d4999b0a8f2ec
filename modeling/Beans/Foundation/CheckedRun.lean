import Beans.Foundation.Words

/-!
# Runs that stop at an overflow

A run with a bound on its recursion, whose operations on signed words have no result
when a word cannot hold it.  A run is safe when it never stops at an overflow and
what it returns, if anything, is as stated.
-/

namespace Beans
namespace CheckedRun

universe u

/-- Why a run stops without a result. -/
inductive Stop where
  | fuel
  | overflow
deriving DecidableEq

abbrev Run := Except Stop

/-- The result of an operation, when a signed word holds it. -/
def word (value : ℤ) : Run ℤ :=
  if SignedWords.Fits value then .ok value else .error .overflow

/-- No overflow, and a result that is as stated. -/
def Safe {α : Type u} (run : Run α) (post : α → Prop) : Prop :=
  run ≠ .error .overflow ∧ ∀ result, run = .ok result → post result

section Rules

variable {α β : Type u} {post : α → Prop} {after : β → Prop}

theorem Safe.pure {result : α} (h : post result) :
    Safe (Pure.pure result) post :=
  ⟨nofun, fun _ h' => Except.ok.inj h' ▸ h⟩

theorem Safe.fuel : Safe (.error .fuel) post :=
  ⟨nofun, nofun⟩

theorem Safe.bind {run : Run α} {next : α → Run β} (h : Safe run post)
    (h' : ∀ result, post result → Safe (next result) after) :
    Safe (run >>= next) after := by
  cases run with
  | error stop => exact ⟨fun heq => h.1 (congrArg _ (Except.error.inj heq)), nofun⟩
  | ok result => exact h' result (h.2 result rfl)

theorem Safe.mono {run : Run α} {post' : α → Prop} (h : Safe run post)
    (h' : ∀ result, post result → post' result) :
    Safe run post' :=
  ⟨h.1, fun result hresult => h' result (h.2 result hresult)⟩

/-- What the run returned, beside what is known of it. -/
theorem Safe.returned {run : Run α} (h : Safe run post) :
    Safe run fun result => run = .ok result ∧ post result :=
  ⟨h.1, fun result hresult => ⟨hresult, h.2 result hresult⟩⟩

theorem Safe.word {value : ℤ} (h : SignedWords.Fits value) :
    Safe (word value) (· = value) := by
  rw [CheckedRun.word, if_pos h]
  exact .pure rfl

end Rules

end CheckedRun
end Beans
