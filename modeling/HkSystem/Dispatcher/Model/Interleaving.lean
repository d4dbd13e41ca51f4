import HkSystem.Dispatcher.Model.Monitor
/-!
# The injection, a step at a time

`execute_secure_runtime_injection` cut at the points where it touches
memory it shares or waits for another component: it reads the metadata, it
hashes `guest_ram`, it asks the fTPM, it copies. The Generator has
`guest_ram` mapped read-write and may store anything there between two of
these steps.
-/

namespace HkSystem

namespace Dispatcher

/-- How far the injection has got, with the locals it holds. -/
inductive Phase where
  | start
  /-- The metadata is read and names the variant. -/
  | checked (metadata : Metadata)
  | hashed (metadata : Metadata) (localHash : UInt32)
  /-- The fTPM accepted the signature on `localHash`. -/
  | verified (metadata : Metadata) (localHash : UInt32)
  | done (outcome : Outcome)

/-- The Dispatcher in the middle of an injection. -/
structure InFlight where
  state : State
  phase : Phase

/-- A step of the Dispatcher, or new contents of `guest_ram` stored by the
Generator. -/
inductive Act where
  | dispatch
  | write (ram : Region 67108864)

/-- The Dispatcher's next step. -/
def InFlight.advance (verifySignature : UInt32 → UInt32 → Option Int32) (variantId : Int32)
    (f : InFlight) : InFlight :=
  match f.phase with
  | .start =>
    let metadata := f.state.shared.secureStorage
    if metadata.vid.toInt32 ≠ variantId then
      { f with phase := .done (.mismatch variantId metadata.vid.toInt32) }
    else { f with phase := .checked metadata }
  | .checked metadata =>
    match computeIntegrityHash f.state.shared.guestRam (Words.sizeT metadata.size.toInt32) with
    | none => { f with phase := .done .stuck }
    | some localHash => { f with phase := .hashed metadata localHash }
  | .hashed metadata localHash =>
    match verifySignature localHash metadata.signature with
    | none => { f with phase := .done .stuck }
    | some isVerified =>
      if isVerified ≠ 0 then { f with phase := .verified metadata localHash }
      else { f with phase := .done (.blocked variantId) }
  | .verified _ _ =>
    match Region.memcpy f.state.workerArena f.state.shared.guestRam 4096 with
    | none => { f with phase := .done .stuck }
    | some arena =>
      { state :=
          { f.state with
            workerArena := arena
            currentActiveVariant := variantId
            totalMutationsCount := f.state.totalMutationsCount + 1 }
        phase := .done (.injected variantId) }
  | .done _ => f

/-- The contents of `guest_ram` right now. -/
def InFlight.ram (f : InFlight) : Region 67108864 := f.state.shared.guestRam

/-- The injection and the Generator's stores, in any order. -/
def interleaved (verifySignature : UInt32 → UInt32 → Option Int32) (variantId : Int32) :
    Machine InFlight Act Unit :=
  ⟨fun f act =>
    match act with
    | .dispatch => (f.advance verifySignature variantId, ())
    | .write ram =>
      ({ f with state := { f.state with shared := { f.state.shared with guestRam := ram } } }, ())⟩

end Dispatcher

end HkSystem
