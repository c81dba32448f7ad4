import RustyPick.Lib.Map
import RustyPick.Lib.Bytes
import RustyPick.Lib.Layers
import RustyPick.Text
import RustyPick.Error
import RustyPick.Record
import RustyPick.Sequence
import RustyPick.Queue
import RustyPick.QueueOrder
import RustyPick.Layout
import RustyPick.Index
import RustyPick.Table
import RustyPick.QueueFile
import RustyPick.QueueSpec
import RustyPick.QueueReady
import RustyPick.QueueRun
import RustyPick.QueueClaim
import RustyPick.QueueSettle
import RustyPick.QueueArrival
import RustyPick.StateFile
import RustyPick.QueueBook
import RustyPick.QueueStore
import RustyPick.QueueDue
import RustyPick.QueueDeliveries
import RustyPick.GroupFile
import RustyPick.MetaFile
import RustyPick.Section
import RustyPick.SectionSave
import RustyPick.SectionCrash
import RustyPick.SectionExact
import RustyPick.IndexFile
import RustyPick.TableFile
import RustyPick.FlushSteps
import RustyPick.Query
import RustyPick.Intent
import RustyPick.TableEdit
import RustyPick.MintedKeys
import RustyPick.ConditionalWrite
import RustyPick.IndexRun
import RustyPick.IndexCrash
import RustyPick.Transaction
import RustyPick.ReplayLog
import RustyPick.Readback
import RustyPick.DeadLetters
import RustyPick.LettersKept
import RustyPick.Cache
import RustyPick.Clients
import RustyPick.ClientGrants
import RustyPick.IndexExact
import RustyPick.ArchiveRoundTrip
import RustyPick.Lib.Outlet
import RustyPick.Protocol
import RustyPick.Directory
import RustyPick.SharedDirectory
import RustyPick.Transfer
import RustyPick.TransferFrame
import RustyPick.TransferStore
import RustyPick.Authority
import RustyPick.Sessions
import RustyPick.SelectLists
import RustyPick.Lib.Marks
import RustyPick.SectionResume
import RustyPick.Marking
import RustyPick.FailedFlush
import RustyPick.FlushRetry
import RustyPick.TruncatedGroup
import RustyPick.RecordCodec
import RustyPick.Lib.Links
import RustyPick.Lib.SortBy
import RustyPick.Lib.Words
import RustyPick.Association
import RustyPick.Explode
import RustyPick.ExplodeGroup
import RustyPick.Sorting
import RustyPick.Selecting
import RustyPick.QueryString
import RustyPick.Lib.Named
import RustyPick.Base64
import RustyPick.RecordJson
import RustyPick.EditString
import RustyPick.CutFile
import RustyPick.Base64Exact
import RustyPick.IndexExclusions
import RustyPick.QueueAge
import RustyPick.ModulusPlan
import RustyPick.Lib.Histogram
import RustyPick.GroupDistribution
import RustyPick.SetFile
import RustyPick.QueueSurvives
import RustyPick.Lossy
import RustyPick.Percent
import RustyPick.Http
import RustyPick.HttpFraming
import RustyPick.HttpBounds
import RustyPick.ErrorLog
import RustyPick.DirectoryListing
import RustyPick.SavedLists
import RustyPick.ArchivePasses
import RustyPick.DirRebuilt
import RustyPick.Format
import RustyPick.Waiting
import RustyPick.ArchiveApplied
import RustyPick.Catalogue
import RustyPick.Restore
import RustyPick.Restored
import RustyPick.Backup
import RustyPick.Batching
import RustyPick.Conversation
import RustyPick.Eviction
