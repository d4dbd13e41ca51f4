/-!
# The memory permissions

The instances of `hk_system.camkes`, their dataports, the regions that its connections
make of them, and the access attributes of its configuration, with the way the CAmkES
tool reads an attribute (`get_perm` of `camkes/templates/macros.py`).
-/

namespace HkSystem

namespace Camkes

/-- The component instances. -/
inductive Instance where
  | dispatcherInst | workerInst | verifierInst | repoInst | timerInst | adminInst | genInst
  | tpmInst | vfsInst
  deriving DecidableEq

/-- The connections of type `seL4SharedData`. -/
inductive Link where
  | execArena | secureMeta | genTransfer | systemRam | vfsIo
  deriving DecidableEq

/-- The dataports of the instances. -/
inductive Dataport where
  | workerArena
  | repoMetadata
  /-- `dispatcher_inst.guest_ram`. -/
  | dispatcherGuestRam
  | executableArena
  | fsBuffer
  | secureStorage
  | genInputBuf
  | genOutputBuf
  /-- `gen_inst.guest_ram`. -/
  | genGuestRam
  | virtualDiskArena

def Dataport.owner : Dataport → Instance
  | .workerArena | .repoMetadata | .dispatcherGuestRam => .dispatcherInst
  | .executableArena | .fsBuffer => .workerInst
  | .secureStorage | .genInputBuf => .repoInst
  | .genOutputBuf | .genGuestRam => .genInst
  | .virtualDiskArena => .vfsInst

def Dataport.link : Dataport → Link
  | .workerArena | .executableArena => .execArena
  | .repoMetadata | .secureStorage => .secureMeta
  | .genOutputBuf | .genInputBuf => .genTransfer
  | .dispatcherGuestRam | .genGuestRam => .systemRam
  | .fsBuffer | .virtualDiskArena => .vfsIo

/-- The attribute `<dataport>_access` in the configuration. -/
def Dataport.access : Dataport → Option String
  | .executableArena => some "RX"
  | .workerArena => some "RW"
  | .repoMetadata => some "R"
  | .secureStorage => some "RW"
  | .genOutputBuf => some "RW"
  | .genInputBuf => some "R"
  | .dispatcherGuestRam => some "RW"
  | .genGuestRam => some "RW"
  | .fsBuffer | .virtualDiskArena => none

/-- `get_perm`. An attribute that does not match `^R?W?X?P?$` is a `TemplateError`. -/
def getPerm (configured : Option String) : Option (List Char) :=
  let perm := (configured.getD "").toList
  if perm = [] then some ['R', 'W', 'X', 'P']
  else if perm.isSublist ['R', 'W', 'X', 'P'] then some perm
  -- `$` also matches in front of a line break that ends the string
  else if perm.getLast? = some '\n' ∧ perm.dropLast.isSublist ['R', 'W', 'X', 'P'] then some perm
  else none

/-- The instance may do this with the region behind the dataport. -/
def Dataport.permits (d : Dataport) (right : Char) : Bool :=
  (getPerm d.access).any (·.contains right)

end Camkes

end HkSystem
