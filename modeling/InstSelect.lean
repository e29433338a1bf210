import InstSelect.CommandLine.Directory
import InstSelect.Main
import InstSelect.Proofs.AddressFolding
import InstSelect.Proofs.CallStack
import InstSelect.Proofs.EdgeAssignment
import InstSelect.Proofs.EncodableCode
import InstSelect.Proofs.FloatingPoint
import InstSelect.Proofs.FoldedConstants
import InstSelect.Proofs.FrameObjects
import InstSelect.Proofs.FunctionTotality
import InstSelect.Proofs.InitializedElements
import InstSelect.Proofs.ModuleBuilding
import InstSelect.Proofs.OperandSharing
import InstSelect.Proofs.OversizedGlobals
import InstSelect.Proofs.PhiElimination
import InstSelect.Proofs.PhiFanOut
import InstSelect.Proofs.Sealing
import InstSelect.Proofs.StoredModules
import InstSelect.Proofs.SymbolClosure
