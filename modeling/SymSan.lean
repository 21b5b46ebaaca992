import SymSan.CodeMeaning
import SymSan.FunctionCache
import SymSan.EventLoops
import SymSan.LauncherProtocol
import SymSan.MutatorSchedule
import SymSan.RlHistory
import SymSan.Z3Unrelated
import SymSan.ClauseRoots
import SymSan.SavedPath
import SymSan.SocketReads
import SymSan.InputReads
import SymSan.LabelRegions
import SymSan.BoundsChecks
import SymSan.IndexProbes
import SymSan.SizeProbes
import SymSan.UndefinedProbes
import SymSan.SearchBounds
import SymSan.SearchPoints
import SymSan.ResultDecoding
import SymSan.LabelCaches
import SymSan.Z3Calls
import SymSan.ScratchArgs
import SymSan.ArgumentShadows
import SymSan.AtomicUpdates
import SymSan.SelectLabels
import SymSan.ShadowMapping
import SymSan.HasLabel
import SymSan.Reallocation
import SymSan.StringLabels
import SymSan.InsertRaces
import SymSan.DistanceWidths
