import HkSystem.Common.PrefixCode
import HkSystem.Generator.Execution
/-!
# Variants tell their draws apart

The junk instructions differ in length and are followed by immediates that may
look like junk. Still a variant can be read from the front: no junk encoding
begins another, none begins the payload, and the payload has one length. So no
variant begins another (`beginsNoOther_encode`), and the bytes the engine
leaves behind determine every choice it made.
-/

namespace HkSystem

namespace Generator

/-! ## The code of a variant -/

theorem beginsNoOther_junk : Code.BeginsNoOther Junk.encode := by
  intro a b h
  cases a <;> cases b <;> first | rfl | exact absurd h (by decide)

theorem encodeLogic_injective : Function.Injective encodeLogic := by
  intro mask mask' h
  -- the mask stands behind the three bytes of `XOR EAX, EAX; ADD EAX`
  simp only [encodeLogic, List.append_assoc] at h
  have hmask := List.append_inj_left (List.append_cancel_left h) rfl
  exact Words.bytesLE_injective hmask

theorem beginsNoOther_encodeLogic : Code.BeginsNoOther encodeLogic :=
  Code.beginsNoOther_of_length length_encodeLogic encodeLogic_injective

/-- The payload starts with a byte no junk starts with. -/
theorem toldApart_junk : Code.ToldApart Junk.encode encodeLogic := by
  intro j mask
  cases j <;> simp [Junk.encode, encodeLogic]

/-- **No variant begins another.** -/
theorem beginsNoOther_encode : Code.BeginsNoOther Draw.encode := by
  intro d d' h
  have hpair := beginsNoOther_junk.sequence beginsNoOther_encodeLogic toldApart_junk
    (d.junk, d.mask) (d'.junk, d'.mask) h
  obtain ⟨hjunk, hmask⟩ := Prod.mk.inj hpair
  cases d
  cases d'
  cases hjunk
  cases hmask
  rfl

/-! ## Two calls -/

/-- **Distinct draws give distinct variants.** No variant of any number of junk
instructions and any mask is another one or begins it. And a variant is what a
call of the engine leaves in `guest_ram` and in `gen_buf` and registers: so if
of two calls, whatever they drew and whatever memory held, the bytes of one
are those of the other or begin them, all their choices were the same. -/
theorem variants_distinct :
    Function.Injective Draw.encode ∧
    (∀ d d' : Draw, d.encode <+: d'.encode → d.encode = d'.encode) ∧
    ∀ (draws draws' : ℕ → UInt32) (k k' : ℕ)
      (addVariant addVariant' : Int32 → Int32 → Shared → Option Shared)
      (baseAddr baseAddr' : UInt64) (id id' complexity complexity' : Int32)
      (shared shared' : Shared),
      ∃ size written next size' written' next',
        genApiRequestGeneration (ofSequence draws) addVariant baseAddr id complexity k shared =
          (addVariant id (Int32.ofNat size) written).map (fun registered => (next, registered)) ∧
        genApiRequestGeneration (ofSequence draws') addVariant' baseAddr' id' complexity' k'
            shared' =
          (addVariant' id' (Int32.ofNat size') written').map
            (fun registered => (next', registered)) ∧
        written.guestRam.first size = (choices draws k).encode ∧
        written.genBuf.first size = (choices draws k).encode ∧
        written'.genBuf.first size' = (choices draws' k').encode ∧
        (written.genBuf.first size <+: written'.genBuf.first size' →
          choices draws k = choices draws' k') := by
  refine ⟨beginsNoOther_encode.injective, fun d d' h => ?_, ?_⟩
  · rw [beginsNoOther_encode d d' h]
  · intro draws draws' k k' addVariant addVariant' baseAddr baseAddr' id id' complexity
      complexity' shared shared'
    obtain ⟨-, hmax⟩ := length_choices draws k
    obtain ⟨-, hmax'⟩ := length_choices draws' k'
    obtain ⟨hram, hbuf⟩ := shared.first_withPayload (hmax.trans (by decide))
    obtain ⟨-, hbuf'⟩ := shared'.first_withPayload (hmax'.trans (by decide))
    refine ⟨_, _, _, _, _, _,
      engine_choices draws k addVariant baseAddr id complexity shared,
      engine_choices draws' k' addVariant' baseAddr' id' complexity' shared',
      hram, hbuf, hbuf', fun h => ?_⟩
    rw [hbuf, hbuf'] at h
    exact beginsNoOther_encode _ _ h

end Generator

end HkSystem
