import Cntr.CallTree
import Cntr.CallTreeLogic
import Cntr.ByteText
import Cntr.SystemCalls
import Cntr.FilePairBuffer
import Cntr.ShovelLoop
import Cntr.CgroupManagers
import Cntr.CgroupV1Migration
import Cntr.HybridFallback
import Cntr.MountinfoColumns
import Cntr.ForwardedOutput
import Cntr.ApparmorProfile
import Cntr.BoundingSet
import Cntr.ContainerSetup
import Cntr.CommandExecution
import Cntr.AttachChild
import Cntr.AttachParent
import Cntr.ExecCommand
import Cntr.CapabilityDrops
import Cntr.CallsMade
import Cntr.ConfinementSteps
import Cntr.EnteredNamespaces
import Cntr.ConfinedExecution
import Cntr.NamespaceMembership
import Cntr.WaitedChild
import Cntr.ParentSupervision
import Cntr.HelperCleanup
import Cntr.ForkedProcesses
import Cntr.ExitPropagation
import Cntr.DrainedPty
import Cntr.IdTranslation
import Cntr.IdMaps
import Cntr.ProfileLabels
import Cntr.ProcessStatus
import Cntr.StatusFiles
import Cntr.ArgumentRoundTrip
import Cntr.InheritedEnvironment
import Cntr.RootTrees
import Cntr.IdmappedMounts
import Cntr.CommandDescriptors
import Cntr.CallTreeTermination
import Cntr.ParserAgreement
import Cntr.ReaderTermination
import Cntr.EndedPairs
import Cntr.WindowSizes
import Cntr.EnvironmentRendering
import Cntr.OverlayEnvironment
import Cntr.BaseDirectory
import Cntr.PathResolution
import Cntr.LocaltimeCopy
import Cntr.LinkTargets
import Cntr.UnifiedCgroupPath
import Cntr.OctalEscapes
import Cntr.RenderedMounts
import Cntr.AttemptedRemovals
import Cntr.RemovedCapabilities
import Cntr.CallTreeSums
import Cntr.ForkingPrograms
import Cntr.HostCalls
import Cntr.EntryPoint
import Cntr.CallFootprints
import Cntr.MountIsolation
import Cntr.ProgramPlans
import Cntr.HelperHandshake
import Cntr.UnreapedChildren
import Cntr.TerminalModes
import Cntr.PtyAgreement
import Cntr.AcceptedArguments
import Cntr.RequestedCommand
import Cntr.FileIsolation
