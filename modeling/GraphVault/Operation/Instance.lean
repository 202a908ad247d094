import GraphVault.Digest.Blake3
import GraphVault.Failure

/-!
# Operation instances

A description names a computation by its class and its parameters in canonical form. An instance
binds a description to the guids of its inputs; its own guid is the digest of all of these, and the
guid of each output is the digest of the instance's guid and the name of the output slot. Whoever
agrees on the content of an instance agrees on all its guids.
-/

namespace GraphVault

/-- A class and its parameters on the wire. -/
structure Description where
  className : String
  params : Bytes
  deriving DecidableEq

/-- Descriptions on the wire. -/
def Description.codec : Wire.Codec Description :=
  (Wire.Codec.text.pair Wire.Codec.bytes).via (fun d => (d.className, d.params))
    fun (className, params) => .ok ⟨className, params⟩

/-- Guids by slot name. -/
abbrev Slots := SortedMap String Guid

/-- Slots on the wire. -/
def Slots.codec : Wire.Codec Slots := Wire.Codec.map Wire.Codec.text Guid.codec

namespace Guid

/-- The digest of a byte string. -/
def ofContent (content : Bytes) : Guid := ⟨Blake3.hash content, Blake3.length_hash content⟩

end Guid

namespace Derivation

/-- A field behind its length, so that the bounds of fields are part of the content. -/
def field (bytes : Bytes) : Bytes := LittleEndian.encode 8 bytes.length ++ bytes

/-- What the content of every instance starts with. -/
def instanceDomain : Bytes := Bytes.ofText "sphynx.instance.v1"

/-- What the content of every output starts with. -/
def outputDomain : Bytes := Bytes.ofText "sphynx.output.v1"

/-- One input: its slot and its guid. -/
def input (binding : String × Guid) : Bytes :=
  field (Bytes.ofText binding.1) ++ binding.2.bytes

/-- The content that the guid of an instance is the digest of. -/
def instanceContent (description : Description) (inputs : Slots) : Bytes :=
  field instanceDomain ++ (field (Bytes.ofText description.className) ++
    (field description.params ++ (LittleEndian.encode 8 inputs.size ++
      inputs.entries.flatMap input)))

/-- The content that the guid of an output is the digest of. -/
def outputContent (owner : Guid) (slot : String) : Bytes :=
  field outputDomain ++ (owner.bytes ++ field (Bytes.ofText slot))

/-- The guid of the instance of a description with the given inputs. -/
def instanceGuid (description : Description) (inputs : Slots) : Guid :=
  Guid.ofContent (instanceContent description inputs)

/-- The guid of an output of an instance. -/
def outputGuid (owner : Guid) (slot : String) : Guid := Guid.ofContent (outputContent owner slot)

end Derivation

/-- A description bound to inputs, with its guid and the guids of its declared outputs. -/
structure Instance where
  guid : Guid
  inputs : Slots
  outputs : Slots
  description : Description
  deriving DecidableEq

namespace Instance

/-- The instance of a description, with all guids derived. -/
def derive (description : Description) (inputs : Slots) (outputSlots : List String) : Instance :=
  let guid := Derivation.instanceGuid description inputs
  { guid, inputs, description
    outputs := SortedMap.ofList (outputSlots.map fun slot => (slot, Derivation.outputGuid guid slot)) }

/-- The class of an instance. -/
def className (i : Instance) : String := i.description.className

/-- Accepts outputs whose guids are derived from the guid of their instance; otherwise names the
first that is not. -/
def verifyOutputs (guid : Guid) : List (String × Guid) → Except Failure Unit
  | [] => .ok ()
  | (slot, declared) :: rest =>
    let derived := Derivation.outputGuid guid slot
    if derived = declared then verifyOutputs guid rest else .error (.guidMismatch declared derived)

/-- Accepts an instance whose guids are all derived from its content. -/
def verify (i : Instance) : Except Failure Unit :=
  let derived := Derivation.instanceGuid i.description i.inputs
  if derived = i.guid then verifyOutputs i.guid i.outputs.entries
  else .error (.guidMismatch i.guid derived)

/-- Instances on the wire. -/
def codec : Wire.Codec Instance :=
  (Guid.codec.pair (Slots.codec.pair (Slots.codec.pair Description.codec))).via
    (fun i => (i.guid, i.inputs, i.outputs, i.description))
    fun (guid, inputs, outputs, description) => .ok ⟨guid, inputs, outputs, description⟩

end Instance

end GraphVault
