import RollMenu.Config.Json
import RollMenu.Limits.Json
import RollMenu.Main
import RollMenu.Proofs.ButtonLength
import RollMenu.Proofs.LiveButtons
import RollMenu.Proofs.SoundPaths
import RollMenu.Service
import RollMenu.Store.File
import RollMenu.Store.Memory
import RollMenu.Proofs.RealDefects
import RollMenu.Proofs.LockedRuns
import RollMenu.Proofs.AcceptedRolls
import RollMenu.Proofs.WireNormalForm
import RollMenu.Proofs.StoreEffects
import RollMenu.Proofs.RefusedPrompts
import RollMenu.Proofs.GrammarReading
import RollMenu.Proofs.WrittenExpressions
import RollMenu.Proofs.CheckedRolls
import RollMenu.Proofs.SelectedRolls
import RollMenu.Proofs.BracePairs
import RollMenu.Proofs.PathCeiling
import RollMenu.Proofs.FileSessions
import RollMenu.Proofs.RecentSources
import RollMenu.Proofs.LookAhead
import RollMenu.Proofs.ViablePrefixes
import RollMenu.Proofs.RelaxedLimits
import RollMenu.Proofs.IntegerMenus
import RollMenu.Proofs.KeptDice
import RollMenu.Proofs.StagedSubstitution
import RollMenu.Proofs.RangeExpansion
import RollMenu.Proofs.WrittenLists
import RollMenu.Proofs.OldButtons
import RollMenu.Proofs.BoundedRuns
import RollMenu.Proofs.NextPlaceholder
import RollMenu.Proofs.PromptGrid
import RollMenu.Proofs.TornFiles
import RollMenu.Proofs.CornerReduction
import RollMenu.Proofs.MenuInvariant
