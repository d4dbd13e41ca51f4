import HkSystem.Generator.Execution
import HkSystem.Generator.Stream
/-!
# Variants in the stream

Which words of the random source become which variant. A variant takes one word for
its length, one for each junk instruction and one for the mask, and the next one
starts where it ends (`offset`). So all variants of a run are read off one stream,
and the stream comes from the one time the timestamp counter was read.
-/

namespace HkSystem

namespace Generator

/-! ## Reading a stream -/

/-- The offset of the `k`-th variant. -/
def offset (word : ℕ → UInt32) : ℕ → ℕ
  | 0 => 0
  | k + 1 => offset word k + 1 + (5 + (word (offset word k)).toNat % 25) + 1

/-- The `k`-th variant of a stream. -/
def variantAt (word : ℕ → UInt32) (k : ℕ) : Draw := choices word (offset word k)

section Source

variable {ρ : Type} {next : ρ → Option (UInt32 × ρ)} {word : ℕ → UInt32} {A : ℕ → ρ → Prop}
variable (hnext : ∀ n g, A n g → ∃ g', next g = some (word n, g') ∧ A (n + 1) g')

include hnext

/-- A source that hands out a stream hands out its junk instructions. -/
theorem drawJunk_of_stream :
    ∀ (turns : ℕ) {n : ℕ} {g : ρ}, A n g →
      ∃ g', drawJunk next turns g =
          some ((List.range turns).map fun i => Junk.ofDraw (word (n + i)), g') ∧
        A (n + turns) g' := by
  intro turns
  induction turns with
  | zero =>
    intro n g h
    exact ⟨g, rfl, h⟩
  | succ turns ih =>
    intro n g h
    obtain ⟨g₁, hword, h₁⟩ := hnext n g h
    obtain ⟨g', hjunk, h'⟩ := ih h₁
    refine ⟨g', ?_, ?_⟩
    · rw [drawJunk, hword, List.range_succ_eq_map, List.map_cons, List.map_map]
      simp only [Option.bind_eq_bind, Option.bind_some, hjunk, Nat.add_zero]
      simp [Function.comp_def, Nat.add_assoc, Nat.add_comm 1]
    · rwa [show n + (turns + 1) = n + 1 + turns by omega]

/-- **A variant is read off the stream where the last one ended.** -/
theorem draw_of_stream {n : ℕ} {g : ρ} (h : A n g) :
    ∃ g', draw next g = some (choices word n, g') ∧
      A (n + 1 + (5 + (word n).toNat % 25) + 1) g' := by
  obtain ⟨g₁, hlength, h₁⟩ := hnext n g h
  obtain ⟨g₂, hjunk, h₂⟩ := drawJunk_of_stream hnext (5 + (word n).toNat % 25) h₁
  obtain ⟨g₃, hmask, h₃⟩ := hnext _ g₂ h₂
  refine ⟨g₃, ?_, h₃⟩
  simp only [draw, hlength, Option.bind_eq_bind, Option.bind_some, toNat_junkLen, hjunk, hmask]
  rfl

end Source

/-! ## The source hands out the stream -/

variable {init : Vector UInt32 16} {c : Csprng} {n : ℕ} {rdtsc : ℕ → UInt32 × UInt32}

/-- **A variant drawn from the ChaCha source.** -/
theorem draw_buffered (h : Buffered init n (c.entered rdtsc)) :
    ∃ c', draw (requestSecureRandom rdtsc) c = some (choices (streamWord init) n, c') ∧
      Buffered init (n + 1 + (5 + (streamWord init n).toNat % 25) + 1) c' := by
  -- behind the first word the source is set up
  have hnext : ∀ k (c : Csprng), (Buffered init k (c.entered rdtsc) ∧ (n < k → Buffered init k c)) →
      ∃ c', requestSecureRandom rdtsc c = some (streamWord init k, c') ∧
        Buffered init (k + 1) (c'.entered rdtsc) ∧ (n < k + 1 → Buffered init (k + 1) c') := by
    rintro k c ⟨hk, -⟩
    obtain ⟨c', hword, hbuffered, -⟩ := requestSecureRandom_buffered hk
    exact ⟨c', hword, by rwa [hbuffered.entered], fun _ => hbuffered⟩
  obtain ⟨c', hdraw, -, hend⟩ := draw_of_stream hnext ⟨h, fun hlt => absurd hlt (lt_irrefl n)⟩
  exact ⟨c', hdraw, hend (by omega)⟩

end Generator

end HkSystem
