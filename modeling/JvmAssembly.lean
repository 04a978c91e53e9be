import JvmAssembly.DescriptorCache
import JvmAssembly.Main
import JvmAssembly.Proofs.BitSet.Elements
import JvmAssembly.Proofs.Builder.ConstantLoads
import JvmAssembly.Proofs.Builder.Failures
import JvmAssembly.Proofs.Builder.Mentions
import JvmAssembly.Proofs.Builder.ParameterSlots
import JvmAssembly.Proofs.ClassDraft
import JvmAssembly.Proofs.Descriptor.Grammar
import JvmAssembly.Proofs.Disassembly.Switches
import JvmAssembly.Proofs.Disassembly.Tiling
import JvmAssembly.Proofs.Draft.ExceptionTable
import JvmAssembly.Proofs.Draft.FrameBounds
import JvmAssembly.Proofs.Draft.Levels
import JvmAssembly.Proofs.Draft.LivePaths
import JvmAssembly.Proofs.Draft.PlacedLabels
import JvmAssembly.Proofs.Draft.VariableTable
import JvmAssembly.Proofs.Pool.Assignment
import JvmAssembly.Proofs.Reassembly
