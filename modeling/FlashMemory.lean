import FlashMemory.Soundness.SharedCells
import FlashMemory.Soundness.PrefillRecall
import FlashMemory.Soundness.DecodeDurability
import FlashMemory.Soundness.DecodeCells
import FlashMemory.Soundness.Isolation
import FlashMemory.Soundness.RowRelease
import FlashMemory.Soundness.OwnerRelease
import FlashMemory.Soundness.TornReads
import FlashMemory.Soundness.RefreshCadence
import FlashMemory.Soundness.Finalize
import FlashMemory.Soundness.PageSelection
import FlashMemory.Soundness.MaskedTopk
import FlashMemory.Soundness.ReserveExhaustion
import FlashMemory.Soundness.EagerRefinement
import FlashMemory.Soundness.FusedRemap
import FlashMemory.Soundness.IndexScores
import FlashMemory.Soundness.SufficientEviction
import FlashMemory.Soundness.TransferCompletion
import FlashMemory.Soundness.LockedPrefix
import FlashMemory.Soundness.ExtendLayout
import FlashMemory.Soundness.WindowedPrealloc
import FlashMemory.Soundness.TidyPools
import FlashMemory.Soundness.ChunkedSend
import FlashMemory.Soundness.MirrorRegistration
import FlashMemory.Soundness.StrayWrites
import FlashMemory.Soundness.TrainingDump
import FlashMemory.Soundness.IndexDrops
import FlashMemory.Soundness.HiSparse
import FlashMemory.Soundness.ReserveSizing
import FlashMemory.Soundness.BatchSampler
import FlashMemory.Soundness.BlockTransfer
import FlashMemory.Soundness.StateRing
import FlashMemory.Soundness.LabelSamples
