import HkSystem.Generator.Model.Csprng
import Mathlib.Data.List.Basic
/-!
# The Generator's random source — its index

The index into the stream stays at most sixteen, so that every read of the
stream is inside it: a call that finds the stream used up refills it first.
-/

namespace HkSystem

namespace Generator

variable {c : Csprng}

@[simp] theorem chachaIndex_entropy (rdtsc : ℕ → UInt32 × UInt32) (c : Csprng) :
    (initializeHardwareEntropy rdtsc c).chachaIndex = c.chachaIndex := by
  rw [initializeHardwareEntropy]

@[simp] theorem chachaIndex_refill (c : Csprng) : c.refill.chachaIndex = 0 := by
  rw [Csprng.refill]

/-- The variables after the first line of the call. -/
def Csprng.entered (rdtsc : ℕ → UInt32 × UInt32) (c : Csprng) : Csprng :=
  if c.isCsprngReady then c else initializeHardwareEntropy rdtsc c

/-- The variables when the word is read. -/
def Csprng.filled (c : Csprng) : Csprng := if c.chachaIndex = 16 then c.refill else c

/-- A call reads one word of the stream, refilled if it was used up. -/
theorem requestSecureRandom_eq (rdtsc : ℕ → UInt32 × UInt32) (c : Csprng) :
    requestSecureRandom rdtsc c =
      ((c.entered rdtsc).filled.chachaStream[(c.entered rdtsc).filled.chachaIndex]?).map
        fun word => (word, { (c.entered rdtsc).filled with
          chachaIndex := (c.entered rdtsc).filled.chachaIndex + 1 }) :=
  Option.map_eq_bind.symm

@[simp] theorem chachaIndex_entered (rdtsc : ℕ → UInt32 × UInt32) (c : Csprng) :
    (c.entered rdtsc).chachaIndex = c.chachaIndex := by
  unfold Csprng.entered
  split
  · rfl
  · exact chachaIndex_entropy rdtsc c

theorem chachaIndex_filled (h : c.chachaIndex ≤ 16) : c.filled.chachaIndex < 16 := by
  unfold Csprng.filled
  split
  · rw [chachaIndex_refill]
    omega
  · omega

/-- **A random word is always available**, and stays so. -/
theorem requestSecureRandom_isSome (rdtsc : ℕ → UInt32 × UInt32) (h : c.chachaIndex ≤ 16) :
    ∃ word c', requestSecureRandom rdtsc c = some (word, c') ∧ c'.chachaIndex ≤ 16 := by
  have hindex : (c.entered rdtsc).filled.chachaIndex < 16 :=
    chachaIndex_filled (by rwa [chachaIndex_entered])
  rw [requestSecureRandom_eq]
  generalize (c.entered rdtsc).filled = c₂ at hindex ⊢
  -- the index is inside the stream, so the checked read succeeds
  refine ⟨c₂.chachaStream[c₂.chachaIndex], { c₂ with chachaIndex := c₂.chachaIndex + 1 }, ?_,
    hindex⟩
  rw [Vector.getElem?_eq_getElem hindex, Option.map_some]

end Generator

end HkSystem
