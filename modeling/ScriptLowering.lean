import ScriptLowering.Proofs.Batch
import ScriptLowering.Proofs.Canonical.ArrayBlob
import ScriptLowering.Proofs.Canonical.Body
import ScriptLowering.Proofs.Canonical.CastNesting
import ScriptLowering.Proofs.Canonical.IntrinsicEffects
import ScriptLowering.Proofs.Canonical.Literal
import ScriptLowering.Proofs.Canonical.NormalForm
import ScriptLowering.Proofs.Canonical.OverflowCheck
import ScriptLowering.Proofs.Canonical.PropertyTarget
import ScriptLowering.Proofs.Canonical.Representation
import ScriptLowering.Proofs.Canonical.Temporary
import ScriptLowering.Proofs.Loss
import ScriptLowering.Proofs.Lowering.Depth
import ScriptLowering.Proofs.Lowering.HandlerChoice
import ScriptLowering.Proofs.Lowering.LabeledBlock
import ScriptLowering.Proofs.Lowering.LiftedOperation
import ScriptLowering.Proofs.Lowering.LoweredCall
import ScriptLowering.Proofs.Lowering.ObjectCopy
import ScriptLowering.Proofs.Lowering.UnsignedComparison
import ScriptLowering.Proofs.Packing.Method
import ScriptLowering.Proofs.Script.MemberNames
import ScriptLowering.Proofs.Ty.InterfaceGrowth
import ScriptLowering.Proofs.Ty.Modifier
import ScriptLowering.Proofs.Ty.Reachability
import ScriptLowering.Proofs.Ty.Registry
import ScriptLowering.Proofs.Ty.RememberedAnswer
