import Lowering.Host.Workspace
import Lowering.Main
import Lowering.Proofs.BalancedTexts
import Lowering.Proofs.ClosureConversion
import Lowering.Proofs.DesugaringOrders
import Lowering.Proofs.ExportedSlots
import Lowering.Proofs.FrameStacks
import Lowering.Proofs.Frequencies
import Lowering.Proofs.HoistedClosures
import Lowering.Proofs.InstanceVariables
import Lowering.Proofs.LayoutNames
import Lowering.Proofs.ReturnScopes
import Lowering.Proofs.SharedSlots
import Lowering.Proofs.SourcePlaces
import Lowering.Proofs.StoredLayouts
import Lowering.Proofs.SurfaceForms
import Lowering.Proofs.Traversals
